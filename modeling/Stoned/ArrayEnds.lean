import Stoned.ArrayMemory

namespace stoned.arrays

open stoned.program (Buffer Rewritten)

/-! Arrays are lists: push, concat, pop, shift, unshift. -/

variable {α β : Type} {m m' : Memory} {lists : List Held} {r src : Ref} {h : Held} {v : Value} {i n : Nat}
  {ys zs : List Value}

theorem push_all_ok (args : List Value) (hm : Holds m lists) (hr : lists[r]? = some h) :
    ∃ m', push_all r args m = .ok ((), m') ∧ Holds m' (changed lists r (h.elems ++ args)) := by
  induction args generalizing m lists h with
  | nil =>
    refine ⟨m, rfl, ?_⟩
    rwa [List.append_nil, changed_same hr]
  | cons v args ih =>
    obtain ⟨m₁, hpush, hm₁⟩ := push_ok (v := v) hm hr
    obtain ⟨m₂, hrest, hm₂⟩ := ih hm₁ (changed_get hr)
    exact ⟨m₂, by rw [push_all, bind_ok hpush, hrest], by simpa using hm₂⟩

theorem push_comes_to {args : List Value} (hr : lists[r]? = some h) (hf : h.frozen = false) :
    ComesTo (fun _ => push r args) lists r (answers (h.elems ++ args) (.value (.array r))) := by
  refine comes_to_answer 0 fun fuel _ m hm => ?_
  obtain ⟨m', hrun, hm'⟩ := push_all_ok args hm hr
  exact ⟨m', by rw [push, unless_frozen_ok hm hr hf, bind_ok hrun, pure_ok], hm'⟩

@[simp] theorem given_array {args : List Value} (hsrc : lists[src]? = some h) :
    given lists (.array src :: args) = h.elems ++ given lists args := by simp [given, hsrc]

theorem given_other {arg : Value} {args : List Value} (harg : ∀ src, arg ≠ .array src) :
    given lists (arg :: args) = given lists args := by
  cases arg with
  | array src => exact absurd rfl (harg src)
  | _ => rfl

theorem concat_all_other {arg : Value} {args : List Value} {fuel : Nat} (harg : ∀ src, arg ≠ .array src) :
    concat_all fuel r (arg :: args) = concat_all fuel r args := by
  cases arg with
  | array src => exact absurd rfl (harg src)
  | _ => rfl

/-- The receiver holds some elements by now; the other arrays are as they were. -/
theorem concat_all_ok {args : List Value} (fuel : Nat) (hr : lists[r]? = some h)
    (hargs : ∀ src, .array src ∈ args → src < lists.length) (hm : Holds m (changed lists r zs))
    (hends : ∀ before behind, args = before ++ .array r :: behind → zs = [] ∧ h.elems = [] ∧ given lists before = [])
    (hfuel : ∀ s ∈ lists, s.elems.length < fuel) (hpos : 0 < fuel) :
    ∃ m', concat_all fuel r args m = .ok ((), m') ∧ Holds m' (changed lists r (zs ++ given lists args)) := by
  induction args generalizing m zs with
  | nil => exact ⟨m, rfl, by simpa [given] using hm⟩
  | cons arg args ih =>
    have hargs' : ∀ src, .array src ∈ args → src < lists.length := fun src hmem => hargs src (.tail _ hmem)
    by_cases harray : ∃ src, arg = .array src
    · obtain ⟨src, rfl⟩ := harray
      obtain ⟨s, hs⟩ : ∃ s, lists[src]? = some s := ⟨_, List.getElem?_eq_getElem (hargs src List.mem_cons_self)⟩
      rw [given_array hs, ← List.append_assoc]
      have hpushed : ∃ m₁, push_while (len src) r src fuel 0 m = .ok ((), m₁) ∧
          Holds m₁ (changed lists r (zs ++ s.elems)) := by
        by_cases hself : src = r
        · subst hself
          obtain ⟨rfl, hnone, -⟩ := hends [] args rfl
          obtain rfl : s = h := Option.some.inj (hs.symm.trans hr)
          obtain ⟨fuel, rfl⟩ := Nat.exists_eq_add_one_of_ne_zero hpos.ne'
          refine ⟨m, ?_, by simpa [hnone] using hm⟩
          rw [push_while, bind_ok (len_ok hm (changed_get hr))]
          rfl
        · have hbound : ∀ m lists', Holds m lists' → lists'[src]? = some s → len src m = .ok (s.elems.length, m) :=
            fun m lists' hm hs => len_ok hm hs
          have hlt : s.elems.length - 0 < fuel := hfuel s (List.mem_of_getElem? hs)
          have hs' : (changed lists r zs)[src]? = some s := by rwa [changed_get_ne hself]
          have hpush := push_while_ok (len src) fuel 0 hself hbound le_rfl hm (changed_get hr) hs' hlt
          simpa using hpush
      obtain ⟨m₁, hpush, hm₁⟩ := hpushed
      obtain ⟨m₂, hrest, hm₂⟩ := ih hargs' hm₁ (by
        rintro before behind rfl
        obtain ⟨rfl, hnone, hgiven⟩ := hends (.array src :: before) behind rfl
        rw [given_array hs] at hgiven
        simpa [hnone] using List.append_eq_nil_iff.mp hgiven)
      exact ⟨m₂, by rw [concat_all, bind_ok hpush, hrest], hm₂⟩
    · have hother : ∀ src, arg ≠ .array src := fun src hsrc => harray ⟨src, hsrc⟩
      rw [given_other hother, concat_all_other hother]
      refine ih hargs' hm ?_
      rintro before behind rfl
      obtain ⟨hzs, hnone, hgiven⟩ := hends (arg :: before) behind rfl
      exact ⟨hzs, hnone, by rwa [given_other hother] at hgiven⟩

theorem concat_comes_to {args : List Value} (hr : lists[r]? = some h) (hf : h.frozen = false)
    (hargs : ∀ src, .array src ∈ args → src < lists.length) (hends : concat_ends lists r h.elems args) :
    ComesTo (fun fuel => concat fuel r args) lists r
      (answers (h.elems ++ given lists args) (.value (.array r))) := by
  obtain ⟨enough, henough⟩ := exists_enough lists
  refine comes_to_answer (enough + 1) fun fuel hfuel m hm => ?_
  have hm' : Holds m (changed lists r h.elems) := by rwa [changed_same hr]
  obtain ⟨m', hrun, hm'⟩ := concat_all_ok fuel hr hargs hm'
    (fun before behind hparts => ⟨(hends before behind hparts).1, hends before behind hparts⟩)
    (fun s hs => (henough s hs).trans_le (by omega)) (by omega)
  exact ⟨m', by rw [concat, unless_frozen_ok hm hr hf, bind_ok hrun, pure_ok], hm'⟩

theorem unshift_one_ok {b : Buffer Value} {xs : List Value} (hb : b.Holds xs) :
    ∃ b', unshift_one v b = some b' ∧ b'.Holds (v :: xs) := by
  have hroom : ∃ b₁, (if b.cap ≤ b.len then b.grow else b) = b₁ ∧ b₁.Holds xs ∧ b₁.len < b₁.cap := by
    split
    · exact ⟨_, rfl, hb.grow, Buffer.len_lt_cap_grow hb.len_le_cap⟩
    · exact ⟨_, rfl, hb, by omega⟩
  obtain ⟨b₁, hb₁, hholds, hlt⟩ := hroom
  have hlen := hholds.len_eq
  have hholds' : b₁.Holds ([] ++ xs) := hholds
  obtain ⟨b₂, hmove, hlen₂, hgap⟩ := hholds'.open_gap (n := 1) (by simp; omega)
  have hgap' : b₂.Gap [] [v].length xs := hgap
  obtain ⟨b₃, hwrite, hlen₃, hfilled⟩ := hgap'.write_all
  have hmove' : b₁.move 1 0 b₁.len = some b₂ := by simpa using hmove
  have hone : b₂.write 0 v = some b₃ := by simpa [Buffer.write_all] using hwrite
  refine ⟨b₃.with_len (b₃.len + 1), ?_, ?_⟩
  · rw [unshift_one, hb₁]
    simp only [hmove', hone, Option.bind_eq_bind, Option.bind_some, Option.pure_def]
  · have hfull := hfilled.holds
    have hcount : ([] ++ [v] : List Value).length + xs.length = b₃.len + 1 := by
      simp only [List.nil_append, List.length_singleton]
      omega
    rwa [hcount] at hfull

theorem unshift_all_ok (args : List Value) (hm : Holds m lists) (hr : lists[r]? = some h) :
    ∃ m', unshift_all r args m = .ok ((), m') ∧ Holds m' (changed lists r (args ++ h.elems)) := by
  induction args with
  | nil =>
    refine ⟨m, rfl, ?_⟩
    rwa [List.nil_append, changed_same hr]
  | cons v args ih =>
    obtain ⟨m₁, hrest, hm₁⟩ := ih
    obtain ⟨m₂, hone, hm₂⟩ := update_ok hm₁ (changed_get hr) fun b hb => unshift_one_ok (v := v) hb
    exact ⟨m₂, by rw [unshift_all, bind_ok hrest, hone], by simpa using hm₂⟩

theorem unshift_comes_to {args : List Value} (hr : lists[r]? = some h) (hf : h.frozen = false) :
    ComesTo (fun _ => unshift r args) lists r (answers (args ++ h.elems) (.value (.array r))) := by
  refine comes_to_answer 0 fun fuel _ m hm => ?_
  obtain ⟨m', hrun, hm'⟩ := unshift_all_ok args hm hr
  exact ⟨m', by rw [unshift, unless_frozen_ok hm hr hf, bind_ok hrun, pure_ok], hm'⟩

theorem pop_comes_to {args : List Value} (hr : lists[r]? = some h) (hf : h.frozen = false) :
    ComesTo (fun fuel => pop fuel r args) lists r (effect.pop h.elems args) := by
  rw [effect.pop]
  cases hn : int_arg args 0 with
  | some n =>
    simp only
    split
    · rename_i hneg
      refine comes_to_same hr fun fuel m hm => ?_
      rw [pop, unless_frozen_ok hm hr hf, bind_ok (len_ok hm hr), hn]
      simp only [(lt_zero_iff n).mpr hneg, if_true]
      rfl
    · rename_i hneg
      refine comes_to_new (h.elems.length + 1) fun fuel hfuel m hm => ?_
      have hkeep : h.elems.length - min n.toInt.toNat h.elems.length = h.elems.length - n.toInt.toNat := by omega
      obtain ⟨m₁, m₂, hnew, hpush, hm₂⟩ := copied (len r) fuel (h.elems.length - n.toInt.toNat)
        hm hr (fun m lists' hm hr => len_ok hm hr) le_rfl (by omega)
      rw [List.take_of_length_le (by simp)] at hm₂
      obtain ⟨m₃, hset, hm₃⟩ := changed_behind hm₂ hr fun b hb =>
        ⟨_, rfl, hb.with_len (n := h.elems.length - n.toInt.toNat) (by omega)⟩
      refine ⟨m₃, ?_, hm₃⟩
      rw [pop, unless_frozen_ok hm hr hf, bind_ok (len_ok hm hr), hn]
      simp only [mt (lt_zero_iff n).mp hneg, if_false, hkeep]
      rw [bind_ok hnew, bind_ok hpush, set_len, bind_ok hset]
      rfl
  | none =>
    simp only
    rcases List.eq_nil_or_concat h.elems with hnone | ⟨front, last, hlast⟩
    · have hdone : ComesTo (fun fuel => pop fuel r args) lists r (answers h.elems (.value .nil)) := by
        refine comes_to_same hr fun fuel m hm => ?_
        rw [pop, unless_frozen_ok hm hr hf, bind_ok (len_ok hm hr), hn, hnone]
        rfl
      rw [hnone] at hdone ⊢
      exact hdone
    · refine comes_to_answer 0 fun fuel _ m hm => ?_
      have hlen : h.elems.length = front.length + 1 := by simp [hlast]
      have hread := read_ok hm hr (i := h.elems.length - 1) (by omega)
      obtain ⟨m₁, hset, hm₁⟩ := set_len_ok (n := h.elems.length - 1) hm hr (by omega)
      refine ⟨m₁, ?_, by rwa [List.dropLast_eq_take]⟩
      rw [pop, unless_frozen_ok hm hr hf, bind_ok (len_ok hm hr), hn]
      simp only [if_neg (show ¬ h.elems.length = 0 by omega)]
      rw [bind_ok hread, bind_ok hset, pure_ok]
      simp [hlast]

theorem close_ok {b : Buffer Value} {xs : List Value} {i k : Nat} (hb : b.Holds xs) (hik : i + k ≤ xs.length) :
    ∃ b', ((b.move i (i + k) (xs.length - i - k)).map fun b => b.with_len (xs.length - k)) = some b' ∧
      b'.Holds (list.cut xs i k) := by
  have hparts : xs.take i ++ (xs.drop i).take k ++ xs.drop (i + k) = xs := by
    rw [List.append_assoc, ← List.drop_drop, List.take_append_drop, List.take_append_drop]
  have hb' : b.Holds (xs.take i ++ (xs.drop i).take k ++ xs.drop (i + k)) := hparts.symm ▸ hb
  obtain ⟨b₁, hmove, hholds⟩ := hb'.close_gap
  have hlen : b₁.len = b.len := by
    unfold Buffer.move at hmove
    split at hmove <;> cases hmove
    rfl
  have hi : (xs.take i).length = i := by simp; omega
  have hk : ((xs.drop i).take k).length = k := by simp; omega
  have hrest : (xs.drop (i + k)).length = xs.length - i - k := by simp; omega
  rw [hi, hk, hrest] at hmove
  rw [hk, hb.len_eq] at hholds
  exact ⟨_, by rw [hmove]; rfl, hholds⟩

theorem shift_comes_to {args : List Value} (hr : lists[r]? = some h) (hf : h.frozen = false) :
    ComesTo (fun fuel => shift fuel r args) lists r (effect.shift h.elems args) := by
  rw [effect.shift]
  cases hn : int_arg args 0 with
  | some n =>
    simp only
    split
    · rename_i hneg
      refine comes_to_same hr fun fuel m hm => ?_
      rw [shift, unless_frozen_ok hm hr hf, bind_ok (len_ok hm hr), hn]
      simp only [(lt_zero_iff n).mpr hneg, if_true]
      rfl
    · rename_i hneg
      refine comes_to_new (h.elems.length + 1) fun fuel hfuel m hm => ?_
      obtain ⟨m₁, m₂, hnew, hpush, hm₂⟩ := copied (pure (min n.toInt.toNat h.elems.length)) fuel 0
        hm hr (fun m lists' hm hr => rfl) (min_le_right _ _) (by omega)
      have htake : (h.elems.drop 0).take (min n.toInt.toNat h.elems.length - 0) = h.elems.take n.toInt.toNat := by
        simp [List.take_eq_take_iff]
      have hdrop : list.cut h.elems 0 (min n.toInt.toNat h.elems.length) = h.elems.drop n.toInt.toNat := by
        simp [list.cut]
      rw [htake] at hm₂
      obtain ⟨m₃, hset, hm₃⟩ := changed_behind hm₂ hr fun b hb =>
        close_ok (i := 0) (k := min n.toInt.toNat h.elems.length) hb (by omega)
      rw [hdrop] at hm₃
      refine ⟨m₃, ?_, hm₃⟩
      rw [shift, unless_frozen_ok hm hr hf, bind_ok (len_ok hm hr), hn]
      simp only [mt (lt_zero_iff n).mp hneg, if_false]
      rw [bind_ok hnew, bind_ok hpush]
      simp only [Nat.zero_add, Nat.sub_zero] at hset
      rw [bind_ok hset]
      rfl
  | none =>
    simp only
    rcases hxs : h.elems with _ | ⟨x, xs⟩
    · have hdone : ComesTo (fun fuel => shift fuel r args) lists r (answers h.elems (.value .nil)) := by
        refine comes_to_same hr fun fuel m hm => ?_
        rw [shift, unless_frozen_ok hm hr hf, bind_ok (len_ok hm hr), hn, hxs]
        rfl
      rwa [hxs] at hdone
    · refine comes_to_answer 0 fun fuel _ m hm => ?_
      have hlen : h.elems.length = xs.length + 1 := by simp [hxs]
      have hread := read_ok hm hr (i := 0) (by omega)
      obtain ⟨m₁, hset, hm₁⟩ := update_ok hm hr fun b hb => close_ok (i := 0) (k := 1) hb (by omega)
      refine ⟨m₁, ?_, by simpa [list.cut, hxs] using hm₁⟩
      rw [shift, unless_frozen_ok hm hr hf, bind_ok (len_ok hm hr), hn]
      simp only [if_neg (show ¬ h.elems.length = 0 by omega)]
      simp only [Nat.zero_add, Nat.sub_zero] at hset
      rw [bind_ok hread, bind_ok hset, pure_ok]
      simp [hxs]

end stoned.arrays
