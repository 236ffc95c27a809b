import Stoned.ArrayList

namespace stoned.arrays

open stoned.program (Buffer Rewritten)

/-! Arrays are lists: the memory, and what the methods share. -/

/-- The buffers in memory are in use for some lists. -/
def Holds (m : Memory) (lists : List Held) : Prop :=
  List.Forall₂ (fun c h => c.buffer.Holds h.elems ∧ c.frozen = h.frozen) m lists

variable {α β : Type} {m m' : Memory} {lists : List Held} {r src : Ref} {h : Held} {v : Value} {i n : Nat}
  {ys zs : List Value}

/-! ### 64-bit integers -/

theorem lt_zero_iff (i : Int64) : i < 0 ↔ i.toInt < 0 := by
  rw [Int64.lt_iff_toInt_lt, Int64.toInt_zero]

theorem toInt_ofNat {n : Nat} (hn : n < 2 ^ 63) : (Int64.ofNat n).toInt = n := Int64.toInt_ofNat_of_lt hn

theorem toInt_add {a b : Int64} (hfits : Fits (a.toInt + b.toInt)) : (a + b).toInt = a.toInt + b.toInt := by
  rw [Int64.toInt_add]
  exact Int.bmod_eq_of_le (by have := hfits.1; omega) (by have := hfits.2; omega)

theorem toInt_sub {a b : Int64} (hfits : Fits (a.toInt - b.toInt)) : (a - b).toInt = a.toInt - b.toInt := by
  rw [Int64.toInt_sub]
  exact Int.bmod_eq_of_le (by have := hfits.1; omega) (by have := hfits.2; omega)

theorem toInt_bounds (a : Int64) : -2 ^ 63 ≤ a.toInt ∧ a.toInt < 2 ^ 63 := ⟨a.le_toInt, a.toInt_lt⟩

/-- A negative index counts from the end. -/
theorem toInt_position {n : Nat} (hn : n < 2 ^ 63) (idx : Int64) :
    (if idx < 0 then idx + Int64.ofNat n else idx).toInt = position idx.toInt n := by
  have hbounds := toInt_bounds idx
  simp only [lt_zero_iff, position]
  split
  · rw [toInt_add (by rw [toInt_ofNat hn]; constructor <;> omega), toInt_ofNat hn]
  · rfl

/-! ### Arrays in memory -/

theorem bind_ok {p : Run α} {f : α → Run β} {a : α} (hp : p m = .ok (a, m')) : (p >>= f) m = f a m' := by
  simp [bind, StateT.bind, hp, Except.bind]

theorem bind_error {p : Run α} {f : α → Run β} {reason : Stop} (hp : p m = .error reason) :
    (p >>= f) m = .error reason := by simp [bind, StateT.bind, hp, Except.bind]

/-- A sequence that ends well is made of two runs that do. -/
theorem ok_of_bind {p : Run α} {f : α → Run β} {b : β} (hrun : (p >>= f) m = .ok (b, m')) :
    ∃ a m₁, p m = .ok (a, m₁) ∧ f a m₁ = .ok (b, m') := by
  cases hp : p m with
  | error reason =>
    rw [bind_error hp] at hrun
    cases hrun
  | ok out =>
    obtain ⟨a, m₁⟩ := out
    rw [bind_ok hp] at hrun
    exact ⟨a, m₁, rfl, hrun⟩

@[simp] theorem pure_ok (a : α) : (pure a : Run α) m = .ok (a, m) := rfl

theorem changed_get (hr : lists[r]? = some h) : (changed lists r ys)[r]? = some { h with elems := ys } := by
  simp [changed, hr]

theorem changed_get_ne (hne : src ≠ r) : (changed lists r ys)[src]? = lists[src]? := by
  simp [changed, hne.symm]

@[simp] theorem changed_changed : changed (changed lists r ys) r zs = changed lists r zs := by
  simp [changed, List.modify_modify_eq, Function.comp_def]

theorem changed_comm (hne : src ≠ r) :
    changed (changed lists r ys) src zs = changed (changed lists src zs) r ys := by
  apply List.ext_getElem?
  intro j
  by_cases hj : j = src
  · subst hj
    rw [changed_get_ne hne]
    simp [changed, hne.symm]
  · rw [changed_get_ne hj]
    by_cases hjr : j = r
    · subst hjr
      simp [changed, hne]
    · rw [changed_get_ne hjr, changed_get_ne hjr, changed_get_ne hj]

@[simp] theorem length_changed : (changed lists r ys).length = lists.length := by simp [changed]

theorem changed_same (hr : lists[r]? = some h) : changed lists r h.elems = lists := by
  apply List.ext_getElem?
  intro j
  by_cases hj : j = r
  · subst hj
    rw [changed_get hr, hr]
  · rw [changed_get_ne hj]

theorem changed_append (hr : r < lists.length) {more : List Held} :
    changed (lists ++ more) r ys = changed lists r ys ++ more := by
  apply List.ext_getElem?
  intro j
  by_cases hj : j = r
  · subst hj
    have hget : (lists ++ more)[j]? = some lists[j] := by rw [List.getElem?_append_left hr, List.getElem?_eq_getElem hr]
    rw [changed_get hget, List.getElem?_append_left (by simpa using hr), changed_get (List.getElem?_eq_getElem hr)]
  · rw [changed_get_ne hj]
    by_cases hlt : j < lists.length
    · rw [List.getElem?_append_left hlt, List.getElem?_append_left (by simpa using hlt), changed_get_ne hj]
    · rw [List.getElem?_append_right (by omega), List.getElem?_append_right (by simp; omega), length_changed]

theorem lt_of_get (hr : lists[r]? = some h) : r < lists.length := (List.getElem?_eq_some_iff.mp hr).1

theorem cell_ok (hm : Holds m lists) (hr : lists[r]? = some h) :
    ∃ c, cell r m = .ok (c, m) ∧ c.buffer.Holds h.elems ∧ c.frozen = h.frozen := by
  obtain ⟨hlt, rfl⟩ := List.getElem?_eq_some_iff.mp hr
  have hlt' : r < m.length := hm.length_eq ▸ hlt
  refine ⟨m[r], ?_, List.Forall₂.get hm hlt' hlt⟩
  simp [cell, hlt']

theorem len_ok (hm : Holds m lists) (hr : lists[r]? = some h) : len r m = .ok (h.elems.length, m) := by
  obtain ⟨c, hc, hholds, -⟩ := cell_ok hm hr
  rw [len, bind_ok hc, hholds.len_eq]
  rfl

theorem read_ok (hm : Holds m lists) (hr : lists[r]? = some h) (hi : i < h.elems.length) :
    read r i m = .ok (h.elems[i], m) := by
  obtain ⟨c, hc, hholds, -⟩ := cell_ok hm hr
  rw [read, bind_ok hc, hholds.read hi]
  rfl

/-- A change of the buffer is a change of the list. -/
theorem update_ok (hm : Holds m lists) (hr : lists[r]? = some h) {change : Buffer Value → Option (Buffer Value)}
    (hchange : ∀ b : Buffer Value, b.Holds h.elems → ∃ b', change b = some b' ∧ b'.Holds ys) :
    ∃ m', update r change m = .ok ((), m') ∧ Holds m' (changed lists r ys) := by
  obtain ⟨hlt, rfl⟩ := List.getElem?_eq_some_iff.mp hr
  have hlt' : r < m.length := hm.length_eq ▸ hlt
  obtain ⟨hholds, hfrozen⟩ := List.Forall₂.get hm hlt' hlt
  obtain ⟨b', hb', hholds'⟩ := hchange _ hholds
  refine ⟨m.set r { buffer := b', frozen := m[r].frozen }, ?_, ?_⟩
  · have hget : m[r]? = some m[r] := List.getElem?_eq_getElem hlt'
    have hb : change m[r].buffer = some b' := hb'
    simp [update, hget, hb]
  · rw [Holds, List.forall₂_iff_get]
    refine ⟨by simpa using hm.length_eq, ?_⟩
    intro j hj hj'
    have hjm : j < m.length := by simpa using hj
    have hjl : j < lists.length := by simpa using hj'
    by_cases hjr : j = r
    · subst hjr
      simpa [changed, List.getElem_modify] using ⟨hholds', hfrozen⟩
    · have hother := List.Forall₂.get hm hjm hjl
      simpa [changed, List.getElem_modify, List.getElem_set, Ne.symm hjr] using hother

theorem write_ok (hm : Holds m lists) (hr : lists[r]? = some h) (hi : i < h.elems.length) :
    ∃ m', write r i v m = .ok ((), m') ∧ Holds m' (changed lists r (h.elems.set i v)) :=
  update_ok hm hr fun _ hb => hb.write hi

theorem set_len_ok (hm : Holds m lists) (hr : lists[r]? = some h) (hn : n ≤ h.elems.length) :
    ∃ m', set_len r n m = .ok ((), m') ∧ Holds m' (changed lists r (h.elems.take n)) :=
  update_ok hm hr fun _ hb => ⟨_, rfl, hb.with_len hn⟩

theorem push_ok (hm : Holds m lists) (hr : lists[r]? = some h) :
    ∃ m', val_array_push r v m = .ok ((), m') ∧ Holds m' (changed lists r (h.elems ++ [v])) :=
  update_ok hm hr fun _ hb => hb.push v

theorem new_ok (hm : Holds m lists) :
    ∃ m', val_array_new m = .ok (lists.length, m') ∧ Holds m' (lists ++ [{ elems := [], frozen := false }]) := by
  refine ⟨_, by rw [val_array_new, hm.length_eq], ?_⟩
  exact List.rel_append hm (.cons ⟨Buffer.holds_empty, rfl⟩ .nil)

/-- The elements of one array are added to another one. -/
theorem push_while_ok (bound : Run Nat) (fuel j : Nat) {d s : Held} {dst : Ref} (hne : src ≠ dst)
    (hbound : ∀ m lists', Holds m lists' → lists'[src]? = some s → bound m = .ok (n, m)) (hn : n ≤ s.elems.length)
    (hm : Holds m lists) (hd : lists[dst]? = some d) (hs : lists[src]? = some s) (hfuel : n - j < fuel) :
    ∃ m', push_while bound dst src fuel j m = .ok ((), m') ∧
      Holds m' (changed lists dst (d.elems ++ (s.elems.drop j).take (n - j))) := by
  induction fuel generalizing m lists d j with
  | zero => omega
  | succ fuel ih =>
    rw [push_while, bind_ok (hbound m lists hm hs)]
    split
    · rename_i hj
      have hlt : j < s.elems.length := by omega
      rw [bind_ok (read_ok hm hs hlt)]
      obtain ⟨m₁, hpush, hm₁⟩ := push_ok (v := s.elems[j]) hm hd
      rw [bind_ok hpush]
      obtain ⟨m₂, hrest, hm₂⟩ := ih (j + 1) hm₁ (changed_get hd) (by rwa [changed_get_ne hne]) (by omega)
      refine ⟨m₂, hrest, ?_⟩
      have hone : n - j = n - (j + 1) + 1 := by omega
      rw [changed_changed] at hm₂
      rw [List.drop_eq_getElem_cons hlt, hone, List.take_succ_cons]
      simpa using hm₂
    · rename_i hj
      refine ⟨m, rfl, ?_⟩
      have hzero : n - j = 0 := by omega
      rw [hzero, List.take_zero, List.append_nil, changed_same hd]
      exact hm

/-- The array is padded up to an index. -/
theorem pad_to_ok (hi : Int64) (fuel : Nat) (hm : Holds m lists) (hr : lists[r]? = some h)
    (hsmall : h.elems.length < 2 ^ 63) (hfuel : hi.toInt.toNat - h.elems.length < fuel) :
    ∃ m', pad_to r hi fuel m = .ok ((), m') ∧
      Holds m' (changed lists r (h.elems ++ List.replicate (hi.toInt.toNat - h.elems.length) .nil)) := by
  induction fuel generalizing m lists h with
  | zero => omega
  | succ fuel ih =>
    rw [pad_to, bind_ok (len_ok hm hr)]
    have hbound := toInt_bounds hi
    split
    · rename_i hlt
      rw [Int64.lt_iff_toInt_lt, toInt_ofNat hsmall] at hlt
      obtain ⟨m₁, hpush, hm₁⟩ := push_ok (v := .nil) hm hr
      obtain ⟨m₂, hrest, hm₂⟩ := ih hm₁ (changed_get hr)
        (by simp only [List.length_append, List.length_singleton]; omega)
        (by simp only [List.length_append, List.length_singleton]; omega)
      rw [bind_ok hpush]
      refine ⟨m₂, hrest, ?_⟩
      have hone : hi.toInt.toNat - h.elems.length = hi.toInt.toNat - (h.elems ++ [Value.nil]).length + 1 := by
        simp only [List.length_append, List.length_singleton]
        omega
      rw [changed_changed] at hm₂
      rw [hone, List.replicate_succ]
      simpa using hm₂
    · rename_i hge
      rw [Int64.lt_iff_toInt_lt, toInt_ofNat hsmall] at hge
      have hnone : hi.toInt.toNat - h.elems.length = 0 := by omega
      refine ⟨m, rfl, ?_⟩
      rw [hnone, List.replicate_zero, List.append_nil, changed_same hr]
      exact hm

/-! ### What a method comes to -/

theorem unless_frozen_ok {method : Run Reply} (hm : Holds m lists) (hr : lists[r]? = some h) (hf : h.frozen = false) :
    unless_frozen r method m = method m := by
  obtain ⟨c, hc, -, hfrozen⟩ := cell_ok hm hr
  rw [unless_frozen, bind_ok hc, hfrozen, hf]
  rfl

theorem unless_frozen_raises {method : Run Reply} (hm : Holds m lists) (hr : lists[r]? = some h)
    (hf : h.frozen = true) :
    unless_frozen r method m = .ok (.raised "FrozenError" "can't modify frozen Array", m) := by
  obtain ⟨c, hc, -, hfrozen⟩ := cell_ok hm hr
  rw [unless_frozen, bind_ok hc, hfrozen, hf]
  rfl

/-- What it is for a method to come to an effect: with enough turns of its loops
it returns the answer, and the lists are changed. -/
def ComesTo (method : Nat → Run Reply) (lists : List Held) (r : Ref) (e : Effect) : Prop :=
  ∃ enough, ∀ fuel, enough ≤ fuel → ∀ m, Holds m lists → ∃ m', method fuel m = .ok (e.reply lists.length, m') ∧
    Holds m' (changed lists r e.elems ++ made_lists e.made)

/-- A method that makes no array. -/
theorem comes_to_answer {method : Nat → Run Reply} {reply : Reply} (enough : Nat)
    (hmethod : ∀ fuel, enough ≤ fuel → ∀ m, Holds m lists →
      ∃ m', method fuel m = .ok (reply, m') ∧ Holds m' (changed lists r ys)) :
    ComesTo method lists r (answers ys reply) := by
  refine ⟨enough, fun fuel hfuel m hm => ?_⟩
  obtain ⟨m', hrun, hm'⟩ := hmethod fuel hfuel m hm
  exact ⟨m', hrun, by simpa [answers, made_lists] using hm'⟩

/-- A method that answers without a change. -/
theorem comes_to_same {method : Nat → Run Reply} {reply : Reply} (hr : lists[r]? = some h)
    (hmethod : ∀ fuel m, Holds m lists → method fuel m = .ok (reply, m)) :
    ComesTo method lists r (answers h.elems reply) :=
  comes_to_answer 0 fun fuel _ m hm => ⟨m, hmethod fuel m hm, by rwa [changed_same hr]⟩

/-- More turns than any of the arrays has elements. -/
theorem exists_enough (lists : List Held) : ∃ enough, ∀ s ∈ lists, s.elems.length < enough := by
  induction lists with
  | nil => exact ⟨0, nofun⟩
  | cons s lists ih =>
    obtain ⟨enough, h⟩ := ih
    refine ⟨max enough (s.elems.length + 1), ?_⟩
    intro t ht
    rcases List.mem_cons.mp ht with rfl | ht
    · omega
    · have := h t ht
      omega

theorem changed_new {s : Held} : changed (lists ++ [s]) lists.length ys = lists ++ [{ s with elems := ys }] := by
  apply List.ext_getElem?
  intro j
  have hget : (lists ++ [s])[lists.length]? = some s := by simp
  by_cases hj : j = lists.length
  · rw [hj, changed_get hget]
    simp
  · rw [changed_get_ne hj]
    by_cases hlt : j < lists.length
    · rw [List.getElem?_append_left hlt, List.getElem?_append_left hlt]
    · rw [List.getElem?_append_right (by omega), List.getElem?_append_right (by omega)]
      have hpos : j - lists.length ≠ 0 := by omega
      simp [hpos]

theorem new_held (hr : lists[r]? = some h) (ys : List Value) :
    (lists ++ [({ elems := ys, frozen := false } : Held)])[lists.length]? = some { elems := ys, frozen := false } ∧
      (lists ++ [({ elems := ys, frozen := false } : Held)])[r]? = some h := by
  refine ⟨by simp, ?_⟩
  rwa [List.getElem?_append_left (lt_of_get hr)]

/-- The receiver is emptied and filled with the elements of a new array. -/
theorem refilled (fuel : Nat) {more : List Held} (hr : lists[r]? = some h)
    (hm : Holds m (lists ++ { elems := ys, frozen := false } :: more)) (hfuel : ys.length < fuel) :
    ∃ m₁ m₂, set_len r 0 m = .ok ((), m₁) ∧
      push_while (len lists.length) r lists.length fuel 0 m₁ = .ok ((), m₂) ∧
      Holds m₂ (changed lists r ys ++ { elems := ys, frozen := false } :: more) := by
  have hlt := lt_of_get hr
  have hmade : (lists ++ ({ elems := ys, frozen := false } : Held) :: more)[lists.length]? =
      some { elems := ys, frozen := false } := by simp
  have hr' : (lists ++ ({ elems := ys, frozen := false } : Held) :: more)[r]? = some h := by
    rwa [List.getElem?_append_left hlt]
  obtain ⟨m₁, hempty, hm₁⟩ := set_len_ok hm hr' (Nat.zero_le _)
  have hmade₁ : (changed (lists ++ ({ elems := ys, frozen := false } : Held) :: more) r (h.elems.take 0))[lists.length]? =
      _ := (changed_get_ne hlt.ne').trans hmade
  obtain ⟨m₂, hfill, hm₂⟩ := push_while_ok (len lists.length) fuel 0 hlt.ne' (fun _ _ hm hs => len_ok hm hs)
    (Nat.le_refl _) hm₁ (changed_get hr') hmade₁ (by simpa using hfuel)
  refine ⟨m₁, m₂, hempty, hfill, ?_⟩
  rwa [changed_changed, List.take_zero, List.nil_append, List.drop_zero, Nat.sub_zero, List.take_length,
    changed_append hlt] at hm₂

/-- A method that makes an array. -/
theorem comes_to_new {method : Nat → Run Reply} (enough : Nat)
    (hmethod : ∀ fuel, enough ≤ fuel → ∀ m, Holds m lists → ∃ m',
      method fuel m = .ok (.value (.array lists.length), m') ∧
        Holds m' (changed lists r ys ++ [{ elems := zs, frozen := false }])) :
    ComesTo method lists r (gives ys zs) := ⟨enough, hmethod⟩

/-- A part of the receiver is copied to a new array. -/
theorem copied (bound : Run Nat) (fuel j : Nat) (hm : Holds m lists) (hr : lists[r]? = some h)
    (hbound : ∀ m lists', Holds m lists' → lists'[r]? = some h → bound m = .ok (n, m)) (hn : n ≤ h.elems.length)
    (hfuel : n - j < fuel) :
    ∃ m₁ m₂, val_array_new m = .ok (lists.length, m₁) ∧ push_while bound lists.length r fuel j m₁ = .ok ((), m₂) ∧
      Holds m₂ (lists ++ [{ elems := (h.elems.drop j).take (n - j), frozen := false }]) := by
  obtain ⟨m₁, hnew, hm₁⟩ := new_ok hm
  have hlt := lt_of_get hr
  have hr' : (lists ++ [({ elems := [], frozen := false } : Held)])[r]? = some h := by
    rwa [List.getElem?_append_left hlt]
  have hnew' : (lists ++ [({ elems := [], frozen := false } : Held)])[lists.length]? =
      some { elems := [], frozen := false } := by simp
  obtain ⟨m₂, hpush, hm₂⟩ := push_while_ok bound fuel j hlt.ne hbound hn hm₁ hnew' hr' hfuel
  rw [changed_new, List.nil_append] at hm₂
  exact ⟨m₁, m₂, hnew, hpush, hm₂⟩

/-- The receiver is changed behind that. -/
theorem changed_behind {made : List Value} {change : Buffer Value → Option (Buffer Value)}
    (hm : Holds m (lists ++ [{ elems := made, frozen := false }])) (hr : lists[r]? = some h)
    (hchange : ∀ b : Buffer Value, b.Holds h.elems → ∃ b', change b = some b' ∧ b'.Holds ys) :
    ∃ m', update r change m = .ok ((), m') ∧ Holds m' (changed lists r ys ++ [{ elems := made, frozen := false }]) := by
  have hlt := lt_of_get hr
  have hr' : (lists ++ [({ elems := made, frozen := false } : Held)])[r]? = some h := by
    rwa [List.getElem?_append_left hlt]
  obtain ⟨m', hupdate, hm'⟩ := update_ok hm hr' hchange
  rw [changed_append hlt] at hm'
  exact ⟨m', hupdate, hm'⟩

end stoned.arrays
