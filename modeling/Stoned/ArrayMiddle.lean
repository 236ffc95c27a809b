import Stoned.ArrayEnds

namespace stoned.arrays

open stoned.program (Buffer Rewritten)

/-! Arrays are lists: insert, replace, clear, delete_at, delete. -/

variable {α β : Type} {m m' : Memory} {lists : List Held} {r src : Ref} {h : Held} {v : Value} {i n : Nat}
  {ys zs : List Value}

theorem insert_at_ok (i : Nat) (values : List Value) {b : Buffer Value} {xs : List Value} (hb : b.Holds xs)
    (hi : i ≤ xs.length) :
    ∃ b', insert_at i values b = some b' ∧ b'.Holds (xs.take i ++ values ++ xs.drop i) := by
  have hroom : ∃ b₁, (if b.cap < b.len + values.length then
      b.reserve (max (if b.cap = 0 then 8 else b.cap * 2) (b.len + values.length)) else b) = b₁ ∧
      b₁.Holds xs ∧ xs.length + values.length ≤ b₁.cap := by
    have hlen := hb.len_eq
    split
    · refine ⟨_, rfl, hb.reserve, ?_⟩
      rw [Buffer.cap_reserve]
      omega
    · exact ⟨_, rfl, hb, by omega⟩
  obtain ⟨b₁, hb₁, hholds, hcap⟩ := hroom
  have hi' : (xs.take i).length = i := by simp [hi]
  have hlen := hholds.len_eq
  have hholds' : b₁.Holds (xs.take i ++ xs.drop i) := by rwa [List.take_append_drop]
  obtain ⟨b₂, hmove, hlen₂, hgap⟩ := hholds'.open_gap (n := values.length) (by
    simp only [List.length_take, List.length_drop]
    omega)
  obtain ⟨b₃, hwrite, hlen₃, hfilled⟩ := hgap.write_all
  rw [hi'] at hmove hwrite
  refine ⟨b₃.with_len (b₃.len + values.length), ?_, ?_⟩
  · rw [insert_at, hb₁]
    simp only [hmove, hwrite, Option.bind_eq_bind, Option.bind_some, Option.pure_def]
  · have hfull := hfilled.holds
    have hcount : (xs.take i ++ values).length + (xs.drop i).length = b₃.len + values.length := by
      simp only [List.length_append, List.length_take, List.length_drop]
      omega
    rwa [hcount] at hfull

theorem toInt_insert_index {n : Nat} (hn : n < 2 ^ 63) (idx : Int64) :
    (insert_index (.ofNat n) idx).toInt = max 0 (if idx.toInt < 0 then idx.toInt + n + 1 else idx.toInt) := by
  have hbounds := toInt_bounds idx
  have hclamp : ∀ i : Int64, (if i < 0 then 0 else i : Int64).toInt = max 0 i.toInt := by
    intro i
    simp only [lt_zero_iff]
    split
    · rw [Int64.toInt_zero]
      omega
    · omega
  rw [insert_index, hclamp]
  simp only [lt_zero_iff]
  split
  · have hone : (1 : Int64).toInt = 1 := rfl
    have hsum : (Int64.ofNat n + idx).toInt = n + idx.toInt := by
      rw [toInt_add (by rw [toInt_ofNat hn]; constructor <;> omega), toInt_ofNat hn]
    rw [toInt_add (by rw [hsum, hone]; constructor <;> omega), hsum, hone]
    omega
  · rfl

theorem insert_comes_to {args : List Value} (hr : lists[r]? = some h) (hf : h.frozen = false)
    (hsmall : h.elems.length < 2 ^ 63) :
    ComesTo (fun fuel => insert fuel r args) lists r (effect.insert r h.elems args) := by
  rw [effect.insert]
  cases hn : int_arg args 0 with
  | none =>
    refine comes_to_same hr fun fuel m hm => ?_
    rw [insert, unless_frozen_ok hm hr hf, hn]
    rfl
  | some idx =>
    have hidx := toInt_insert_index hsmall idx
    dsimp only
    generalize hi : (if idx.toInt < 0 then idx.toInt + h.elems.length + 1 else idx.toInt) = i at hidx ⊢
    have hnat : (insert_index (.ofNat h.elems.length) idx).toInt.toNat = i.toNat := by omega
    refine comes_to_answer (i.toNat + 1) fun fuel hfuel m hm => ?_
    obtain ⟨m₁, hpad, hm₁⟩ := pad_to_ok (insert_index (.ofNat h.elems.length) idx) fuel hm hr hsmall
      (by omega)
    rw [hnat] at hm₁
    obtain ⟨m₂, hinsert, hm₂⟩ := update_ok hm₁ (changed_get hr) fun b hb =>
      insert_at_ok i.toNat (args.drop 1) hb
        (by simp only [List.length_append, List.length_replicate]; omega)
    rw [changed_changed] at hm₂
    refine ⟨m₂, ?_, hm₂⟩
    rw [insert, unless_frozen_ok hm hr hf, hn]
    simp only
    rw [bind_ok (len_ok hm hr), bind_ok hpad, hnat, bind_ok hinsert, pure_ok]

/-! ### replace, clear, delete_at -/

theorem clear_comes_to (hr : lists[r]? = some h) (hf : h.frozen = false) :
    ComesTo (fun _ => clear r) lists r (answers [] (.value (.array r))) := by
  refine comes_to_answer 0 fun fuel _ m hm => ?_
  obtain ⟨m₁, hset, hm₁⟩ := set_len_ok (n := 0) hm hr (Nat.zero_le _)
  exact ⟨m₁, by rw [clear, unless_frozen_ok hm hr hf, bind_ok hset, pure_ok], hm₁⟩

theorem replace_comes_to {args : List Value} (hr : lists[r]? = some h) (hf : h.frozen = false)
    (hargs : ∀ src, .array src ∈ args → src < lists.length) :
    ComesTo (fun fuel => replace fuel r args) lists r (effect.replace lists r h.elems args) := by
  cases args with
  | nil => exact comes_to_same hr fun fuel m hm => rfl
  | cons arg args =>
    cases arg with
    | array src =>
      obtain ⟨s, hs⟩ : ∃ s, lists[src]? = some s := ⟨_, List.getElem?_eq_getElem (hargs src List.mem_cons_self)⟩
      have heffect : effect.replace lists r h.elems (.array src :: args) = answers s.elems (.value (.array r)) := by
        simp [effect.replace, hs]
      rw [heffect]
      by_cases hself : src = r
      · subst hself
        obtain rfl := Option.some.inj (hs.symm.trans hr)
        refine comes_to_same hr fun fuel m hm => ?_
        rw [replace, unless_frozen_ok hm hr hf]
        simp
      · refine comes_to_answer (s.elems.length + 1) fun fuel hfuel m hm => ?_
        obtain ⟨m₁, hset, hm₁⟩ := set_len_ok (n := 0) hm hr (Nat.zero_le _)
        have hs' : (changed lists r (h.elems.take 0))[src]? = some s := by rwa [changed_get_ne hself]
        obtain ⟨m₂, hpush, hm₂⟩ := push_while_ok (len src) fuel 0 hself
          (fun m lists' hm hs => len_ok hm hs) le_rfl hm₁ (changed_get hr) hs' (by omega)
        refine ⟨m₂, ?_, by simpa using hm₂⟩
        rw [replace, unless_frozen_ok hm hr hf]
        simp only [if_neg hself]
        rw [bind_ok hset, bind_ok hpush, pure_ok]
    | _ => exact comes_to_same hr fun fuel m hm => (unless_frozen_ok hm hr hf).trans rfl

theorem delete_at_comes_to {args : List Value} (hr : lists[r]? = some h) (hf : h.frozen = false)
    (hsmall : h.elems.length < 2 ^ 63) :
    ComesTo (fun _ => delete_at r args) lists r (effect.delete_at h.elems args) := by
  rw [effect.delete_at]
  cases hn : int_arg args 0 with
  | none =>
    refine comes_to_same hr fun fuel m hm => ?_
    rw [delete_at, unless_frozen_ok hm hr hf, hn]
    rfl
  | some idx =>
    have hpos := toInt_position hsmall idx
    have hinside : ((if idx < 0 then idx + Int64.ofNat h.elems.length else idx) < 0 ∨
        Int64.ofNat h.elems.length ≤ (if idx < 0 then idx + Int64.ofNat h.elems.length else idx)) ↔
        ¬ (0 ≤ position idx.toInt h.elems.length ∧ position idx.toInt h.elems.length < h.elems.length) := by
      rw [lt_zero_iff, Int64.le_iff_toInt_le, toInt_ofNat hsmall, hpos]
      omega
    simp only
    split
    · rename_i hin
      refine comes_to_answer 0 fun fuel _ m hm => ?_
      have hlt : (position idx.toInt h.elems.length).toNat < h.elems.length := by omega
      have hread := read_ok hm hr hlt
      obtain ⟨m₁, hupdate, hm₁⟩ := update_ok hm hr fun b hb =>
        close_ok (i := (position idx.toInt h.elems.length).toNat) (k := 1) hb (by omega)
      refine ⟨m₁, ?_, by rwa [List.eraseIdx_eq_take_drop_succ]⟩
      rw [delete_at, unless_frozen_ok hm hr hf, hn]
      simp only
      rw [bind_ok (len_ok hm hr), if_neg (mt hinside.mp (not_not.mpr hin)), hpos, bind_ok hread]
      rw [bind_ok hupdate, pure_ok]
      simp [hlt]
    · rename_i hout
      refine comes_to_same hr fun fuel m hm => ?_
      rw [delete_at, unless_frozen_ok hm hr hf, hn]
      simp only
      rw [bind_ok (len_ok hm hr), if_pos (hinside.mpr hout), pure_ok]

/-! ### delete -/

theorem elems_of_cells {b : Buffer Value} {xs : List Value} (hb : b.Holds xs) :
    (b.cells.take b.len).filterMap id = xs := by
  obtain ⟨spare, hcells⟩ := hb.cells_eq
  have hlen : b.len = (xs.map some).length := by rw [hb.len_eq, List.length_map]
  rw [hcells, hlen, List.take_left, List.filterMap_map]
  exact List.filterMap_some

theorem key_heap_eq (hashes : List KeyedHash) (hm : Holds m lists) :
    key_heap hashes m = { arrays := lists.map Held.elems, hashes } := by
  have harrays : (m.map fun c => (c.buffer.cells.take c.buffer.len).filterMap id) = lists.map Held.elems := by
    induction hm with
    | nil => rfl
    | cons hhead _ ih => rw [List.map_cons, List.map_cons, ih, elems_of_cells hhead.1]
  rw [key_heap, harrays]

variable {hashes : List KeyedHash} {depth : Nat}

theorem val_equal_ok {a b : Value} {same : Bool} (hm : Holds m lists)
    (hsame : equal_in hashes depth lists a b = some same) : val_equal hashes depth a b m = .ok (same, m) := by
  rw [val_equal, key_heap_eq hashes hm]
  rw [equal_in] at hsame
  rw [hsame]

/-- Whether an element is to be deleted. -/
def deletes (hashes : List KeyedHash) (depth : Nat) (lists : List Held) (arg x : Value) : Bool :=
  equal_in hashes depth lists x arg = some true

theorem filter_take_succ {xs : List Value} (p : Value → Bool) (hlt : i < xs.length) :
    (xs.take (i + 1)).filter p = (xs.take i).filter p ++ if p xs[i] then [xs[i]] else [] := by
  rw [List.take_succ_eq_append_getElem hlt, List.filter_append, List.filter_singleton]
  cases p xs[i] <;> rfl

/-- Up to `i` the elements that stay have moved to the front. -/
theorem delete_each_ok (fuel : Nat) {arg : Value} (deleted : Value) {gone : Value → Bool} {front : List Value}
    (hr : lists[r]? = some h)
    (hsees : ∀ x ∈ h.elems, ∀ ys : List Value, ys.length = h.elems.length →
      equal_in hashes depth (changed lists r ys) x arg = some (gone x))
    (hm : Holds m (changed lists r zs)) (hd : Rewritten h.elems front i zs)
    (hfront : front = (h.elems.take i).filter fun x => !gone x)
    (hlast : deleted = (((h.elems.take i).filter gone).getLast?).getD .nil) (hfuel : h.elems.length - i < fuel) :
    ∃ m' zs', delete_each hashes depth r arg fuel i front.length deleted m =
        .ok (((h.elems.filter fun x => !gone x).length, ((h.elems.filter gone).getLast?).getD .nil), m') ∧
      Holds m' (changed lists r zs') ∧
      Rewritten h.elems (h.elems.filter fun x => !gone x) h.elems.length zs' := by
  induction fuel generalizing m zs i front deleted with
  | zero => omega
  | succ fuel ih =>
    have hlen := hd.length_eq
    rw [delete_each, bind_ok (len_ok hm (changed_get hr))]
    simp only [hlen]
    split
    · rename_i hlt
      have hread := read_ok hm (changed_get hr) (i := i) (by simp only; omega)
      simp only [hd.get hlt] at hread
      rw [bind_ok hread, bind_ok (val_equal_ok hm (hsees _ (List.getElem_mem hlt) zs hlen))]
      have hkept := filter_take_succ (fun x => !gone x) hlt
      have hgone := filter_take_succ gone hlt
      rw [← hfront] at hkept
      cases hg : gone h.elems[i] with
      | true =>
        simp only [if_true]
        refine ih _ hm (hd.skip hlt) ?_ ?_ (by omega)
        · simpa [hg] using hkept.symm
        · rw [hgone, hg]
          simp
      | false =>
        simp only [Bool.false_eq_true, if_false]
        obtain ⟨m₁, hwrite, hm₁⟩ := write_ok (v := h.elems[i]) hm (changed_get hr) (i := front.length)
          (hd.writer_lt hlt)
        rw [bind_ok hwrite]
        rw [changed_changed] at hm₁
        have hcount : front.length + 1 = (front ++ [h.elems[i]]).length := by simp
        rw [hcount]
        refine ih _ hm₁ (hd.put hlt h.elems[i]) ?_ ?_ (by omega)
        · simpa [hg] using hkept.symm
        · rw [hgone, hg, hlast]
          simp
    · rename_i hge
      obtain rfl : i = h.elems.length := le_antisymm hd.inside (not_lt.mp hge)
      rw [List.take_length] at hfront hlast
      subst hfront hlast
      exact ⟨m, zs, rfl, hm, hd⟩

theorem equal_in_nil {arg : Value} (hsame : equal_in hashes depth lists .nil arg = some true) : arg = .nil := by
  cases depth with
  | zero => cases hsame
  | succ depth => cases arg <;> simp [equal_in, KeyHeap.val_equal] at hsame ⊢

/-- The answer of `delete`. A block answers where the last deleted element is nil. -/
theorem delete_reply (hashes : List KeyedHash) (depth : Nat) (lists : List Held) {xs : List Value} {arg : Value}
    {blk : Option (List Value → Value)} (hblk : blk.isSome → arg = .nil → .nil ∉ xs) :
    let last := (xs.filter (deletes hashes depth lists arg)).getLast?
    (match blk with
      | some block => if (last.getD .nil).kind = .nil then block [] else last.getD .nil
      | none => last.getD .nil) = last.getD (match blk with | some block => block [] | none => .nil) := by
  intro last
  cases blk with
  | none => rfl
  | some block =>
    cases hlast : last with
    | none => rfl
    | some v =>
      obtain ⟨hmem, hsame⟩ := List.mem_filter.mp (List.mem_of_getLast? hlast)
      have hkind : v.kind ≠ .nil := by
        intro hkind
        obtain rfl : v = .nil := by cases v <;> first | rfl | cases hkind
        exact hblk rfl (equal_in_nil (of_decide_eq_true hsame)) hmem
      exact if_neg hkind

theorem delete_comes_to {args : List Value} {blk : Option (List Value → Value)} 
    (hr : lists[r]? = some h) (hf : h.frozen = false)
    (hsees : delete_sees hashes depth lists r h.elems args blk) :
    ComesTo (fun fuel => delete hashes depth fuel r args blk) lists r
      (effect.delete (fun a b => equal_in hashes depth lists a b = some true) h.elems args blk) := by
  cases args with
  | nil => exact comes_to_same hr fun fuel m hm => (unless_frozen_ok hm hr hf).trans rfl
  | cons arg args =>
    obtain ⟨hreturns, hblk⟩ := hsees arg rfl
    have hsees' : ∀ x ∈ h.elems, ∀ ys : List Value, ys.length = h.elems.length →
        equal_in hashes depth (changed lists r ys) x arg = some (deletes hashes depth lists arg x) := by
      intro x hx ys hys
      obtain ⟨same, hsame⟩ := hreturns x hx
      have hnow := hsame h.elems rfl
      rw [changed_same hr] at hnow
      rw [hsame ys hys, deletes, hnow]
      cases same <;> rfl
    refine comes_to_answer (h.elems.length + 1) fun fuel hfuel m hm => ?_
    obtain ⟨m₁, zs, hrun, hm₁, hd⟩ := delete_each_ok fuel .nil hr hsees'
      (by rwa [changed_same hr]) (Rewritten.start le_rfl (Nat.zero_le _)) (by simp) (by simp) (by omega)
    rw [List.take_zero, List.length_nil] at hrun
    obtain ⟨m₂, hset, hm₂⟩ := set_len_ok hm₁ (changed_get hr) (hd.length_eq ▸ hd.le)
    rw [changed_changed] at hm₂
    simp only [hd.front_eq] at hm₂
    refine ⟨m₂, ?_, hm₂⟩
    rw [delete, unless_frozen_ok hm hr hf]
    simp only
    rw [bind_ok hrun]
    simp only
    rw [bind_ok hset]
    have hreply := delete_reply hashes depth lists hblk
    cases blk with
    | none => exact congrArg (fun v => Except.ok (Reply.value v, m₂)) hreply
    | some block => exact congrArg (fun v => Except.ok (Reply.value v, m₂)) hreply

end stoned.arrays
