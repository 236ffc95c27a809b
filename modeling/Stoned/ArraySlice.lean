import Stoned.ArrayMiddle

namespace stoned.arrays

open stoned.program (Buffer Rewritten)

/-! Arrays are lists: slice!, fill. -/

variable {α β : Type} {m m' : Memory} {lists : List Held} {r src : Ref} {h : Held} {v : Value} {i n : Nat}
  {ys zs : List Value}

/-! ### slice! -/

theorem slice_each_ok (fuel : Nat) (hi idx : Int64) {removed : Ref} {d : Held} (hne : r ≠ removed)
    (hm : Holds m lists) (hd : lists[removed]? = some d) (hr : lists[r]? = some h)
    (hsmall : h.elems.length < 2 ^ 60) (hpos : 0 ≤ idx.toInt) (hhi : hi.toInt ≤ h.elems.length)
    (hfuel : hi.toInt.toNat - idx.toInt.toNat < fuel) :
    ∃ m', slice_each r removed hi fuel idx m = .ok ((), m') ∧
      Holds m' (changed lists removed
        (d.elems ++ (h.elems.drop idx.toInt.toNat).take (hi.toInt.toNat - idx.toInt.toNat))) := by
  induction fuel generalizing m lists d idx with
  | zero => omega
  | succ fuel ih =>
    rw [slice_each]
    simp only [Int64.lt_iff_toInt_lt]
    split
    · rename_i hlt
      have hnext : (idx + 1).toInt = idx.toInt + 1 := by
        have hone : (1 : Int64).toInt = 1 := rfl
        rw [toInt_add (by rw [hone]; constructor <;> omega), hone]
      have hin : idx.toInt.toNat < h.elems.length := by omega
      rw [bind_ok (read_ok hm hr hin)]
      obtain ⟨m₁, hpush, hm₁⟩ := push_ok (v := h.elems[idx.toInt.toNat]) hm hd
      rw [bind_ok hpush]
      obtain ⟨m₂, hrest, hm₂⟩ := ih (idx + 1) hm₁ (changed_get hd) (by rwa [changed_get_ne hne])
        (by omega) (by omega)
      refine ⟨m₂, hrest, ?_⟩
      have hsucc : (idx + 1).toInt.toNat = idx.toInt.toNat + 1 := by omega
      have hone : hi.toInt.toNat - idx.toInt.toNat = hi.toInt.toNat - (idx.toInt.toNat + 1) + 1 := by omega
      rw [changed_changed, hsucc] at hm₂
      rw [List.drop_eq_getElem_cons hin, hone, List.take_succ_cons]
      simpa using hm₂
    · rename_i hge
      refine ⟨m, rfl, ?_⟩
      have hzero : hi.toInt.toNat - idx.toInt.toNat = 0 := by omega
      rw [hzero, List.take_zero, List.append_nil, changed_same hd]
      exact hm

theorem cut_take_succ {xs : List Value} {p k : Nat} (hlt : p + k + i < xs.length) :
    xs.take p ++ (xs.drop (p + k)).take i ++ [xs[p + k + i]] = xs.take p ++ (xs.drop (p + k)).take (i + 1) := by
  rw [List.append_assoc, List.take_succ_eq_append_getElem (by rw [List.length_drop]; omega), List.getElem_drop]

/-- The elements behind the slice have moved to the front. -/
theorem compact_each_ok (fuel : Nat) {idx n tail j : Int64} {p k : Nat} (hr : lists[r]? = some h)
    (hsmall : h.elems.length < 2 ^ 60) (hidx : idx.toInt = p) (hn : n.toInt = k)
    (htail : tail.toInt = h.elems.length - (p + k)) (hj : j.toInt = i) (hm : Holds m (changed lists r zs))
    (hd : Rewritten h.elems (h.elems.take p ++ (h.elems.drop (p + k)).take i) (p + k + i) zs)
    (hfuel : h.elems.length - (p + k + i) < fuel) :
    ∃ m' zs', compact_each r idx n tail fuel j m = .ok ((), m') ∧ Holds m' (changed lists r zs') ∧
      Rewritten h.elems (list.cut h.elems p k) h.elems.length zs' := by
  induction fuel generalizing m zs i j with
  | zero => omega
  | succ fuel ih =>
    have hinside := hd.inside
    rw [compact_each]
    simp only [Int64.lt_iff_toInt_lt, htail, hj]
    split
    · rename_i hlt
      have hin : p + k + i < h.elems.length := by omega
      have hsum : (idx + n).toInt = p + k := by
        rw [toInt_add (by rw [hidx, hn]; constructor <;> omega), hidx, hn]
      have hread : (idx + n + j).toInt.toNat = p + k + i := by
        rw [toInt_add (by rw [hsum, hj]; constructor <;> omega), hsum, hj]
        omega
      have hfront : (h.elems.take p ++ (h.elems.drop (p + k)).take i).length = p + i := by
        simp only [List.length_append, List.length_take, List.length_drop]
        omega
      have hwrite : (idx + j).toInt.toNat = p + i := by
        rw [toInt_add (by rw [hidx, hj]; constructor <;> omega), hidx, hj]
        omega
      have hnext : (j + 1).toInt = (i + 1 : Nat) := by
        have hone : (1 : Int64).toInt = 1 := rfl
        rw [toInt_add (by rw [hone]; constructor <;> omega), hone, hj]
        rfl
      have hval := read_ok hm (changed_get hr) (i := p + k + i) (hd.length_eq ▸ hin)
      simp only [hd.get hin] at hval
      rw [hread, bind_ok hval, hwrite, ← hfront]
      obtain ⟨m₁, hput, hm₁⟩ := write_ok (v := h.elems[p + k + i]) hm (changed_get hr) (hd.writer_lt hin)
      rw [bind_ok hput]
      rw [changed_changed] at hm₁
      have hd₁ := hd.put hin h.elems[p + k + i]
      rw [cut_take_succ hin] at hd₁
      exact ih hnext hm₁ hd₁ (by omega)
    · rename_i hge
      have hall : (h.elems.drop (p + k)).length ≤ i := by
        rw [List.length_drop]
        omega
      have hend : p + k + i = h.elems.length := by omega
      rw [List.take_of_length_le hall, hend] at hd
      exact ⟨m, zs, rfl, hm, hd⟩

/-- A slice inside the array is taken out. -/
theorem slice_out_ok (fuel : Nat) (single : Bool) {idx n : Int64} {p k : Nat} (hm : Holds m lists)
    (hr : lists[r]? = some h) (hsmall : h.elems.length < 2 ^ 60) (hidx : idx.toInt = p) (hn : n.toInt = k)
    (hin : p + k ≤ h.elems.length)
    (hfuel : h.elems.length < fuel) :
    ∃ m', slice_out fuel r single (.ofNat h.elems.length) idx n m =
        .ok (match single, list.part h.elems p k with
          | true, [v] => .value v
          | _, _ => .value (.array lists.length), m') ∧
      Holds m' (changed lists r (list.cut h.elems p k) ++ [{ elems := list.part h.elems p k, frozen := false }]) := by
  have hlt := lt_of_get hr
  have hsum : (idx + n).toInt = p + k := by
    rw [toInt_add (by rw [hidx, hn]; constructor <;> omega), hidx, hn]
  have hlen : (Int64.ofNat h.elems.length).toInt = h.elems.length := toInt_ofNat (by omega)
  have htail : (Int64.ofNat h.elems.length - (idx + n)).toInt = h.elems.length - (p + k) := by
    rw [toInt_sub (by rw [hsum, hlen]; constructor <;> omega), hsum, hlen]
  have hkept : (Int64.ofNat h.elems.length - n).toInt.toNat = h.elems.length - k := by
    rw [toInt_sub (by rw [hn, hlen]; constructor <;> omega), hn, hlen]
    omega
  obtain ⟨m₁, hnew, hm₁⟩ := new_ok hm
  have hnone : (lists ++ [({ elems := [], frozen := false } : Held)])[lists.length]? =
      some { elems := [], frozen := false } := by simp
  have hr₁ : (lists ++ [({ elems := [], frozen := false } : Held)])[r]? = some h := by
    rwa [List.getElem?_append_left hlt]
  obtain ⟨m₂, heach, hm₂⟩ := slice_each_ok fuel (idx + n) idx hlt.ne hm₁ hnone hr₁ hsmall
    (by omega) (by omega) (by omega)
  have hcount : (idx + n).toInt.toNat - idx.toInt.toNat = k := by omega
  have hstart : idx.toInt.toNat = p := by omega
  rw [hcount, hstart, changed_new, List.nil_append] at hm₂
  generalize hlists₂ : lists ++ [{ elems := (h.elems.drop p).take k, frozen := false }] = lists₂ at hm₂
  have hr₂ : lists₂[r]? = some h := by rwa [← hlists₂, List.getElem?_append_left hlt]
  have hrewrite : Rewritten h.elems (h.elems.take p ++ (h.elems.drop (p + k)).take 0) (p + k + 0) h.elems := by
    simpa using Rewritten.start (Nat.le_add_right p k) hin
  obtain ⟨m₃, zs, hcompact, hm₃, hd⟩ := compact_each_ok fuel (j := 0) hr₂ hsmall hidx hn htail rfl
    (by rwa [changed_same hr₂]) hrewrite (by omega)
  have hcut : (list.cut h.elems p k).length = h.elems.length - k := by
    simp only [list.cut, List.length_append, List.length_take, List.length_drop]
    omega
  obtain ⟨m₄, hset, hm₄⟩ := set_len_ok (n := (list.cut h.elems p k).length) hm₃ (changed_get hr₂)
    (hd.length_eq ▸ hd.le)
  rw [changed_changed] at hm₄
  simp only [hd.front_eq] at hm₄
  rw [← hlists₂, changed_append hlt] at hm₄
  have hmade : (changed lists r (list.cut h.elems p k) ++
      [({ elems := (h.elems.drop p).take k, frozen := false } : Held)])[lists.length]? =
      some { elems := (h.elems.drop p).take k, frozen := false } := by
    rw [List.getElem?_append_right (by simp)]
    simp
  refine ⟨m₄, ?_, hm₄⟩
  rw [slice_out, bind_ok hnew, bind_ok heach, bind_ok hcompact, hkept, ← hcut, bind_ok hset, bind_ok (len_ok hm₄ hmade)]
  simp only [list.part]
  have hread : ∀ v, (h.elems.drop p).take k = [v] → read lists.length 0 m₄ = .ok (v, m₄) := by
    intro v hone
    have hzero := read_ok hm₄ hmade (i := 0) (by simp [hone])
    simpa [hone] using hzero
  cases single with
  | false => rfl
  | true =>
    rcases hpart : (h.elems.drop p).take k with _ | ⟨v, _ | ⟨w, rest⟩⟩
    · rfl
    · simp only [List.length_singleton, BEq.rfl, Bool.and_self, if_true]
      rw [bind_ok (hread v hpart), pure_ok]
    · simp

/-- An inclusive range without an end: its bounds go one further than the end of the array. -/
def endless (end_val : Value) (exclusive : Bool) : Int := if exclusive = false ∧ end_val.kind ≠ .int then 1 else 0

theorem endless_cases (end_val : Value) (exclusive : Bool) (n : Nat) :
    endless end_val exclusive = 0 ∨ (endless end_val exclusive = 1 ∧ range_end end_val exclusive n = n) := by
  unfold endless
  split
  · rename_i hendless
    right
    cases end_val with
    | int => exact absurd rfl hendless.2
    | _ => exact ⟨rfl, rfl⟩
  · exact .inl rfl

theorem toInt_range_start {n : Nat} (hn : n < 2 ^ 60) (begin_val end_val : Value) (exclusive : Bool) :
    (range_bounds begin_val end_val exclusive (.ofNat n)).1.toInt = range_start begin_val n := by
  cases begin_val with
  | int i => exact toInt_position (by omega) i
  | _ => rfl

theorem toInt_range_end {n : Nat} (hn : n < 2 ^ 60) (begin_val end_val : Value) (exclusive : Bool)
    (hfits : RangeFits begin_val end_val exclusive n) (hstart : 0 ≤ range_start begin_val n) :
    (range_bounds begin_val end_val exclusive (.ofNat n)).2.toInt =
      range_end end_val exclusive n + endless end_val exclusive - range_start begin_val n := by
  have hidx := toInt_range_start hn begin_val end_val exclusive
  obtain ⟨hend, hcount⟩ := hfits
  have hone : (1 : Int64).toInt = 1 := rfl
  have hlen : (Int64.ofNat n).toInt = n := toInt_ofNat (by omega)
  have hlast : ∀ hi : Int64, ∀ last : Int, hi.toInt = last → Fits (last + if exclusive then 0 else 1) →
      (if exclusive then hi else hi + 1).toInt = last + if exclusive then 0 else 1 := by
    rintro hi _ rfl hfits
    cases exclusive with
    | true => simp
    | false => exact (toInt_add hfits).trans (by rw [hone]; simp)
  have hbehind : ∃ hi : Int64, (range_bounds begin_val end_val exclusive (.ofNat n)).2 =
      hi - (range_bounds begin_val end_val exclusive (.ofNat n)).1 ∧
      hi.toInt = range_end end_val exclusive n + endless end_val exclusive := by
    cases end_val with
    | int i =>
      refine ⟨_, rfl, ?_⟩
      simpa [endless, range_end, Value.kind] using hlast _ _ (toInt_position (by omega) i) hend
    | _ =>
      refine ⟨_, rfl, ?_⟩
      have hpos : ¬ Int64.ofNat n < 0 := by
        rw [lt_zero_iff, hlen]
        omega
      have hfits : Fits (n + if exclusive then 0 else 1) := by
        constructor <;> cases exclusive <;> simp <;> omega
      have hhi := hlast (if Int64.ofNat n < 0 then Int64.ofNat n + Int64.ofNat n else Int64.ofNat n) n
        (by rw [if_neg hpos, hlen]) hfits
      cases exclusive <;> simpa [endless, range_end, Value.kind] using hhi
  obtain ⟨hi, heq, hhi⟩ := hbehind
  have hbound := toInt_bounds (range_bounds begin_val end_val exclusive (.ofNat n)).1
  rw [hidx] at hbound
  rw [heq, toInt_sub, hhi, hidx]
  rw [hhi, hidx]
  obtain ⟨hlow, hhigh⟩ := hcount
  rcases endless_cases end_val exclusive n with hnone | ⟨hone, hlast⟩
  · rw [hnone]
    constructor <;> omega
  · rw [hone, hlast]
    constructor <;> omega

/-- The effect of taking elements out at some bounds. -/
def sliced (xs : List Value) (single : Bool) (p n : Int) : Effect :=
  if 0 ≤ p ∧ p ≤ xs.length ∧ 0 ≤ n then
    { elems := list.cut xs p.toNat n.toNat, made := some (list.part xs p.toNat n.toNat),
      reply := fun r => match single, list.part xs p.toNat n.toNat with
        | true, [v] => .value v
        | _, _ => .value (.array r) }
  else answers xs (.value .nil)

theorem cut_min (xs : List Value) (p k : Nat) : list.cut xs p (min k (xs.length - p)) = list.cut xs p k := by
  rcases Nat.le_total k (xs.length - p) with hk | hk
  · rw [min_eq_left hk]
  · rw [min_eq_right hk, list.cut, list.cut, List.drop_eq_nil_of_le (by omega), List.drop_eq_nil_of_le (by omega)]

theorem part_min (xs : List Value) (p k : Nat) : list.part xs p (min k (xs.length - p)) = list.part xs p k := by
  rw [list.part, list.part, ← List.length_drop, List.take_eq_take_iff]
  omega

/-- The bounds do not overflow. -/
theorem slice_bounds_comes_to {args : List Value} {idx n : Int64} (hr : lists[r]? = some h)
    (hf : h.frozen = false) (hsmall : h.elems.length < 2 ^ 60) (hargs : args ≠ [])
    (hbounds : slice_bounds args (.ofNat h.elems.length) = some (idx, n))
    (hfits : 0 ≤ idx.toInt → idx.toInt ≤ h.elems.length → 0 ≤ n.toInt → Fits (idx.toInt + n.toInt)) :
    ComesTo (fun fuel => slice_bang fuel r args) lists r
      (sliced h.elems (single_index args) idx.toInt n.toInt) := by
  have hempty : args.isEmpty = false := by simpa using hargs
  have hlen : (Int64.ofNat h.elems.length).toInt = h.elems.length := toInt_ofNat (by omega)
  have hout : (idx < 0 ∨ Int64.ofNat h.elems.length < idx ∨ n < 0) ↔
      ¬ (0 ≤ idx.toInt ∧ idx.toInt ≤ h.elems.length ∧ 0 ≤ n.toInt) := by
    rw [lt_zero_iff, lt_zero_iff, Int64.lt_iff_toInt_lt, hlen]
    omega
  unfold sliced
  split
  · rename_i hin
    obtain ⟨hp, hle, hk⟩ := hin
    have hsum : (idx + n).toInt = idx.toInt + n.toInt := toInt_add (hfits hp hle hk)
    have hclamp : (if Int64.ofNat h.elems.length < idx + n then Int64.ofNat h.elems.length - idx else n).toInt =
        min n.toInt.toNat (h.elems.length - idx.toInt.toNat) := by
      have hdiff : (Int64.ofNat h.elems.length - idx).toInt = h.elems.length - idx.toInt := by
        rw [toInt_sub (by rw [hlen]; constructor <;> omega), hlen]
      simp only [Int64.lt_iff_toInt_lt, hlen, hsum]
      split <;> omega
    refine ⟨h.elems.length + 1, fun fuel hfuel m hm => ?_⟩
    obtain ⟨m', hrun, hm'⟩ := slice_out_ok fuel (single_index args) hm hr hsmall
      (Int.toNat_of_nonneg hp).symm hclamp (by omega) (by omega)
    rw [cut_min, part_min] at hm'
    rw [part_min] at hrun
    refine ⟨m', ?_, hm'⟩
    change slice_bang fuel r args m = _
    rw [slice_bang, hempty, if_neg Bool.false_ne_true, unless_frozen_ok hm hr hf, bind_ok (len_ok hm hr)]
    simp only [hbounds]
    rw [if_neg (mt hout.mp (not_not.mpr ⟨hp, hle, hk⟩)), hrun]
  · rename_i hin
    refine comes_to_same hr fun fuel m hm => ?_
    rw [slice_bang, hempty, if_neg Bool.false_ne_true, unless_frozen_ok hm hr hf, bind_ok (len_ok hm hr)]
    simp only [hbounds]
    rw [if_pos (hout.mpr hin), pure_ok]

theorem sliced_false {xs : List Value} {p n : Int} : sliced xs false p n = effect.slice xs p n := rfl

/-- Going one further than the end makes no difference. -/
theorem slice_endless {xs : List Value} {p : Int} :
    effect.slice xs p (xs.length + 1 - p) = effect.slice xs p (xs.length - p) := by
  unfold effect.slice
  by_cases hin : 0 ≤ p ∧ p ≤ xs.length
  · rw [if_pos (by omega), if_pos (by omega)]
    have hcut := cut_min xs p.toNat (xs.length + 1 - p).toNat
    have hpart := part_min xs p.toNat (xs.length + 1 - p).toNat
    have hmin : min (xs.length + 1 - p).toNat (xs.length - p.toNat) = (xs.length - p).toNat := by omega
    rw [← hcut, ← hpart, hmin]
  · rw [if_neg (by omega), if_neg (by omega)]

theorem slice_negative {xs : List Value} {p n : Int} (hp : p < 0) : effect.slice xs p n = answers xs (.value .nil) :=
  if_neg (by omega)

theorem slice_single {xs : List Value} {p : Int} (hp : p ≠ xs.length) (i : Int64)
    (hi : position i.toInt xs.length = p) :
    effect.slice_bang xs [.int i] = sliced xs true p 1 := by
  unfold effect.slice_bang sliced
  simp only [hi]
  by_cases hin : 0 ≤ p ∧ p < xs.length
  · have hlt : p.toNat < xs.length := by omega
    have hone : list.part xs p.toNat 1 = [xs[p.toNat]] := by
      rw [list.part, List.drop_eq_getElem_cons hlt]
      rfl
    rw [if_pos hin, if_pos (by omega)]
    have hnat : (1 : Int).toNat = 1 := rfl
    simp only [hnat, hone]
    simp [hlt]
  · rw [if_neg hin, if_neg (by omega)]

theorem slice_bang_comes_to {args : List Value} (hr : lists[r]? = some h) (hf : h.frozen = false)
    (hsmall : h.elems.length < 2 ^ 60) (hargs : args ≠ []) (hfits : slice_fits h.elems.length args) :
    ComesTo (fun fuel => slice_bang fuel r args) lists r (effect.slice_bang h.elems args) := by
  have hother : slice_bounds args (.ofNat h.elems.length) = none →
      ComesTo (fun fuel => slice_bang fuel r args) lists r (answers h.elems (.value .nil)) := by
    intro hnone
    refine comes_to_same hr fun fuel m hm => ?_
    rw [slice_bang, if_neg (by simpa using hargs), unless_frozen_ok hm hr hf, bind_ok (len_ok hm hr)]
    simp only [hnone]
    rfl
  rcases args with _ | ⟨arg, rest⟩
  · exact absurd rfl hargs
  · cases arg with
    | int i =>
      have hpos := toInt_position (n := h.elems.length) (by omega) i
      cases rest with
      | nil =>
        rw [slice_single hfits i rfl, ← hpos]
        have hone : (1 : Int64).toInt = 1 := rfl
        have hsum : ∀ p : Int, 0 ≤ p → p ≤ h.elems.length → Fits (p + (1 : Int64).toInt) := by
          intro p hp hle
          rw [hone]
          constructor <;> omega
        exact slice_bounds_comes_to hr hf hsmall hargs rfl fun hp hle _ => hsum _ hp hle
      | cons next rest =>
        have heffect : effect.slice_bang h.elems (.int i :: next :: rest) =
            sliced h.elems false (position i.toInt h.elems.length)
              ((int_arg (next :: rest) 0).getD 1).toInt := by
          rw [sliced_false]
          cases hcount : int_arg (next :: rest) 0 <;> simp only [effect.slice_bang, hcount] <;> rfl
        have hbounds : slice_bounds (.int i :: next :: rest) (.ofNat h.elems.length) =
            some (if i < 0 then i + .ofNat h.elems.length else i, (int_arg (next :: rest) 0).getD 1) := by
          rw [slice_bounds]
          cases int_arg (next :: rest) 0 <;> rfl
        rw [heffect, ← hpos]
        refine slice_bounds_comes_to hr hf hsmall hargs hbounds fun hp hle hk => ?_
        rw [hpos] at hp hle ⊢
        cases hcount : int_arg (next :: rest) 0 with
        | some n => exact hfits n hcount hp hle (by simpa only [hcount, Option.getD_some] using hk)
        | none =>
          have hone : (1 : Int64).toInt = 1 := rfl
          simp only [Option.getD_none, hone]
          constructor <;> omega
    | range begin_val end_val exclusive =>
      have hstart := toInt_range_start hsmall begin_val end_val exclusive
      have heffect : effect.slice_bang h.elems (.range begin_val end_val exclusive :: rest) =
          sliced h.elems false (range_bounds begin_val end_val exclusive (.ofNat h.elems.length)).1.toInt
            (range_bounds begin_val end_val exclusive (.ofNat h.elems.length)).2.toInt := by
        rw [sliced_false, hstart, effect.slice_bang]
        by_cases hp : 0 ≤ range_start begin_val h.elems.length
        · rw [toInt_range_end hsmall _ _ _ hfits hp]
          rcases endless_cases end_val exclusive h.elems.length with hnone | ⟨hone, hend⟩
          · rw [hnone, add_zero]
          · rw [hone, hend, slice_endless]
        · rw [slice_negative (by omega), slice_negative (by omega)]
      rw [heffect]
      refine slice_bounds_comes_to hr hf hsmall hargs rfl fun hp hle hk => ?_
      rw [hstart] at hp ⊢
      rw [toInt_range_end hsmall _ _ _ hfits hp, add_sub_cancel]
      rcases endless_cases end_val exclusive h.elems.length with hnone | ⟨hone, hend⟩
      · rw [hnone, add_zero]
        exact hfits.1
      · rw [hone, hend]
        constructor <;> omega
    | _ => exact hother rfl

/-! ### fill -/

/-- The elements from `p` on, up to `i`, have been set. -/
theorem fill_each_ok (fuel : Nat) {value : Int64 → Value} {is_block : Bool} {hi idx : Int64} {p k : Nat}
    (hval : is_block = true → ∀ i, val_is_signal (value i) = false) (hr : lists[r]? = some h)
    (hin : p + k ≤ ys.length) (hhi : hi.toInt = p + k) (hik : i ≤ k) (hidx : idx.toInt = p + i)
    (hm : Holds m (changed lists r zs))
    (hd : Rewritten ys (ys.take p ++ (List.range i).map fun j => value (.ofNat (p + j))) (p + i) zs)
    (hfuel : k - i < fuel) :
    ∃ m', fill_each r value is_block hi fuel idx m = .ok (none, m') ∧
      Holds m' (changed lists r
        (ys.take p ++ (List.range k).map (fun j => value (.ofNat (p + j))) ++ ys.drop (p + k))) := by
  induction fuel generalizing m zs i idx with
  | zero => omega
  | succ fuel ih =>
    have hbounds := toInt_bounds hi
    have hlength : (ys.take p ++ (List.range i).map fun j => value (.ofNat (p + j))).length = p + i := by
      simp only [List.length_append, List.length_take, List.length_map, List.length_range]
      omega
    rw [fill_each]
    simp only [Int64.lt_iff_toInt_lt, hhi, hidx]
    split
    · rename_i hlt
      have hsignal : (is_block && val_is_signal (value idx)) = false := by
        cases is_block with
        | false => rfl
        | true => simp [hval rfl idx]
      have hnext : (idx + 1).toInt = p + (i + 1 : Nat) := by
        have hone : (1 : Int64).toInt = 1 := rfl
        rw [toInt_add (by rw [hone]; constructor <;> omega), hone, hidx]
        omega
      have hsame : idx = .ofNat (p + i) := by
        rw [← Int64.toInt_inj, toInt_ofNat (by omega), hidx]
        rfl
      have hlt' : p + i < ys.length := by omega
      have hat : ((p : Int) + i).toNat = p + i := by omega
      have hput := hd.put hlt' (value idx)
      obtain ⟨m₁, hwrite, hm₁⟩ := write_ok (v := value idx) hm (changed_get hr) (hd.writer_lt hlt')
      rw [changed_changed, hlength] at hm₁
      rw [hlength] at hwrite hput
      rw [hsignal, if_neg Bool.false_ne_true, hat, bind_ok hwrite]
      refine ih (i := i + 1) (by omega) hnext hm₁ ?_ (by omega)
      rw [List.range_succ, List.map_append, ← List.append_assoc]
      subst hsame
      exact hput
    · rename_i hge
      obtain rfl : i = k := by omega
      rw [hd.eq hlength] at hm
      exact ⟨m, rfl, hm⟩

theorem fill_from_comes_to {value : Int64 → Value} {is_block : Bool} {start n : Int64} {p k : Nat}
    (hval : is_block = true → ∀ i, val_is_signal (value i) = false) (hr : lists[r]? = some h)
    (hsmall : h.elems.length < 2 ^ 60) (hstart : start.toInt = p) (hn : n.toInt = k) (hfits : Fits (p + k))
    (hzero : k = 0 → p ≤ h.elems.length) :
    ComesTo (fun fuel => fill_from fuel r value is_block start n) lists r
      (answers (list.fill h.elems p k fun i => value (.ofNat i)) (.value (.array r))) := by
  have hhi : (start + n).toInt = p + k := by
    rw [toInt_add (by rwa [hstart, hn]), hstart, hn]
  have hnat : (start + n).toInt.toNat = p + k := by omega
  refine comes_to_answer (p + k + 1) fun fuel hfuel m hm => ?_
  obtain ⟨m₁, hpad, hm₁⟩ := pad_to_ok (start + n) fuel hm hr (by omega) (by omega)
  rw [hnat] at hm₁
  generalize hpadded : h.elems ++ List.replicate (p + k - h.elems.length) Value.nil = padded at hm₁
  have hlen : p + k ≤ padded.length := by
    simp only [← hpadded, List.length_append, List.length_replicate]
    omega
  have hrewrite : Rewritten padded
      (padded.take p ++ (List.range 0).map fun j => value (.ofNat (p + j))) (p + 0) padded := by
    simpa using Rewritten.start (le_refl p) (show p ≤ padded.length by omega)
  obtain ⟨m₂, heach, hm₂⟩ := fill_each_ok fuel hval hr hlen hhi (Nat.zero_le k)
    (by simpa using hstart) hm₁ hrewrite (by omega)
  refine ⟨m₂, ?_, ?_⟩
  · rw [fill_from, bind_ok hpad, bind_ok heach]
    rfl
  · unfold list.fill
    split
    · rename_i hk
      have hpad : p + k - h.elems.length = 0 := by have := hzero hk; omega
      rw [hpad, List.replicate_zero, List.append_nil] at hpadded
      simpa [hk, ← hpadded] using hm₂
    · rwa [hpadded]

/-- The bounds `fill` computes: there is nothing to set, or they are the ones the arguments say. -/
theorem fill_bounds_ok {n : Nat} (hn : n < 2 ^ 60) {args : List Value} (hfits : fill_fits n args) {start count : Int64}
    (hbounds : fill_bounds args (.ofNat n) = (start, count)) :
    (count.toInt < 0 ∧ (effect.filled args n).2 = 0) ∨
      ((if start < 0 then 0 else start : Int64).toInt = (effect.filled args n).1 ∧
        count.toInt = (effect.filled args n).2 ∧
        Fits ((effect.filled args n).1 + (effect.filled args n).2) ∧
        ((effect.filled args n).2 = 0 → (effect.filled args n).1 ≤ n)) := by
  have hlen : (Int64.ofNat n).toInt = n := toInt_ofNat (by omega)
  have hclamp : ∀ i : Int64, (if i < 0 then 0 else i : Int64).toInt = i.toInt.toNat := by
    intro i
    simp only [lt_zero_iff]
    split
    · rw [Int64.toInt_zero]
      omega
    · omega
  rw [hclamp]
  rcases args with _ | ⟨arg, rest⟩
  · cases hbounds
    refine .inr ⟨rfl, hlen, ?_, fun _ => Nat.zero_le n⟩
    constructor <;> simp only [effect.filled] <;> omega
  · cases arg with
    | range begin_val end_val exclusive =>
      obtain ⟨hrange, hpos, hend, hzero⟩ := hfits
      have hstart := toInt_range_start hn begin_val end_val exclusive
      have hcount := toInt_range_end hn begin_val end_val exclusive hrange hpos
      have hnone : endless end_val exclusive = 0 := if_neg fun hendless => hendless.2 (hend hendless.1)
      have hpair : range_bounds begin_val end_val exclusive (.ofNat n) = (start, count) := hbounds
      rw [hpair] at hstart hcount
      rw [hnone, add_zero] at hcount
      simp only at hstart hcount
      obtain ⟨hlow, hhigh⟩ := hrange.1
      simp only [effect.filled]
      by_cases hneg : count.toInt < 0
      · exact .inl ⟨hneg, by omega⟩
      · refine .inr ⟨by omega, by omega, ⟨by omega, by omega⟩, fun _ => by omega⟩
    | int i =>
      have hstart := toInt_position (n := n) (by omega) i
      cases hcount : int_arg rest 0 with
      | some c =>
        simp only [fill_bounds, hcount, Prod.mk.injEq] at hbounds
        obtain ⟨rfl, rfl⟩ := hbounds
        simp only [fill_fits, hcount] at hfits
        simp only [effect.filled, hcount]
        by_cases hneg : c.toInt < 0
        · exact .inl ⟨hneg, by omega⟩
        · obtain ⟨⟨hlow, hhigh⟩, hzero⟩ := hfits (by omega)
          refine .inr ⟨by omega, by omega, ⟨by omega, by omega⟩, fun _ => by omega⟩
      | none =>
        simp only [fill_bounds, hcount, Prod.mk.injEq] at hbounds
        obtain ⟨rfl, rfl⟩ := hbounds
        simp only [fill_fits, hcount] at hfits
        simp only [effect.filled, hcount]
        have hbound := toInt_bounds (if i < 0 then i + Int64.ofNat n else i)
        rw [toInt_sub (by rw [hlen, hstart]; constructor <;> omega), hlen, hstart]
        by_cases hneg : n < position i.toInt n
        · exact .inl ⟨by omega, by omega⟩
        · refine .inr ⟨by omega, by omega, ⟨by omega, by omega⟩, fun _ => by omega⟩
    | _ =>
      cases hbounds
      refine .inr ⟨rfl, hlen, ?_, fun _ => Nat.zero_le n⟩
      constructor <;> simp only [effect.filled] <;> omega

theorem fill_comes_to {args : List Value} {blk : Option (List Value → Value)} 
    (hr : lists[r]? = some h) (hf : h.frozen = false) (hsmall : h.elems.length < 2 ^ 60)
    (hblk : ∀ block ∈ blk, ∀ vs, val_is_signal (block vs) = false)
    (hfits : fill_fits h.elems.length (if blk.isSome then args else args.drop 1)) :
    ComesTo (fun fuel => fill fuel r args blk) lists r (effect.fill r h.elems args blk) := by
  generalize hbounds : fill_bounds (if blk.isSome then args else args.drop 1) (.ofNat h.elems.length) = bounds
  obtain ⟨start, count⟩ := bounds
  have hok := fill_bounds_ok hsmall hfits hbounds
  -- the rest of the method, whatever is to be set
  have hrest : ∀ (value : Int64 → Value) (is_block : Bool),
      (is_block = true → ∀ i, val_is_signal (value i) = false) →
      (∀ fuel m, Holds m lists → fill fuel r args blk m = if count < 0 then .ok (.value (.array r), m) else
        fill_from fuel r value is_block (if start < 0 then 0 else start) count m) →
      ComesTo (fun fuel => fill fuel r args blk) lists r
        (answers (list.fill h.elems
          (effect.filled (if blk.isSome then args else args.drop 1) h.elems.length).1
          (effect.filled (if blk.isSome then args else args.drop 1) h.elems.length).2 fun i => value (.ofNat i))
          (.value (.array r))) := by
    intro value is_block hval hrun
    rcases hok with ⟨hneg, hzero⟩ | ⟨hstart, hcount, hfits, hzero⟩
    · rw [hzero, list.fill, if_pos rfl]
      exact comes_to_same hr fun fuel m hm => by
        rw [hrun fuel m hm, if_pos ((lt_zero_iff count).mpr hneg)]
    · obtain ⟨enough, henough⟩ := fill_from_comes_to hval hr hsmall hstart hcount hfits hzero
      refine ⟨enough, fun fuel hfuel m hm => ?_⟩
      obtain ⟨m', hfrom, hm'⟩ := henough fuel hfuel m hm
      have hpos : ¬ count < 0 := by
        rw [lt_zero_iff]
        omega
      exact ⟨m', (hrun fuel m hm).trans ((if_neg hpos).trans hfrom), hm'⟩
  have hrun : ∀ fuel m, Holds m lists → (blk.isNone && args.isEmpty) = false → fill fuel r args blk m =
      if count < 0 then .ok (.value (.array r), m) else
        blk.elim (fill_from fuel r (fun _ => args.headD .nil) false (if start < 0 then 0 else start) count)
          (fun block => fill_from fuel r (fun i => block [.int i]) true (if start < 0 then 0 else start) count) m := by
    intro fuel m hm hgiven
    rw [fill, unless_frozen_ok hm hr hf, hgiven, if_neg Bool.false_ne_true, bind_ok (len_ok hm hr), hbounds]
    simp only
    cases blk <;> split <;> rfl
  cases blk with
  | some block =>
    exact hrest (fun i => block [.int i]) true (fun _ i => hblk block rfl [.int i]) fun fuel m hm => hrun fuel m hm rfl
  | none =>
    cases args with
    | nil => exact comes_to_same hr fun fuel m hm => (unless_frozen_ok hm hr hf).trans rfl
    | cons value rest => exact hrest (fun _ => value) false (by rintro ⟨⟩) fun fuel m hm => hrun fuel m hm rfl

end stoned.arrays
