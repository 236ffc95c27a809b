import Stoned.Iterators
import Stoned.SubscriptLaw

namespace stoned.arrays

/-! What the filters that change the receiver leave of it. -/

/-- A value of a program, and no sign that it is over. -/
def Answer.Ordinary (a : Answer) : Prop := a.errored = false ∧ val_is_signal a.value = false

theorem Answer.Ordinary.leaves_eq {a : Answer} (h : a.Ordinary) : a.leaves = none := by
  obtain ⟨value, errored⟩ := a
  obtain ⟨rfl, hvalue⟩ := h
  cases value <;> first | rfl | cases hvalue

section
variable (block : Callee) (keeps : Bool)

/-- Whether a filter keeps an element. -/
def keep (i : Nat) (v : Value) : Bool := val_truthy (block i [v]).value = keeps

/-- The elements it keeps among the first `k`. -/
def kept (xs : List Value) (k : Nat) : List Value :=
  ((xs.take k).zipIdx.filter fun p => keep block keeps p.2 p.1).map Prod.fst

variable {xs : List Value} {k : Nat}

variable {block keeps} in
theorem kept_zero : kept block keeps xs 0 = [] := rfl

variable {block keeps} in
theorem kept_succ (hlt : k < xs.length) :
    kept block keeps xs (k + 1) = kept block keeps xs k ++ if keep block keeps k xs[k] then [xs[k]] else [] := by
  have hlen : (xs.take k).length = k := List.length_take_of_le hlt.le
  rw [kept, List.take_succ_eq_append_getElem hlt, List.zipIdx_append, List.filter_append, List.map_append, hlen,
    Nat.zero_add, List.zipIdx_singleton, List.filter_singleton]
  cases keep block keeps k xs[k] <;> simp [kept]

theorem kept_sublist (xs : List Value) (k : Nat) : (kept block keeps xs k).Sublist (xs.take k) := by
  have hsub := (List.filter_sublist (p := fun p : Value × Nat => keep block keeps p.2 p.1)
    (l := (xs.take k).zipIdx)).map Prod.fst
  rwa [List.zipIdx_map_fst] at hsub

theorem length_kept_le (xs : List Value) (k : Nat) : (kept block keeps xs k).length ≤ k :=
  (kept_sublist block keeps xs k).length_le.trans (List.length_take_le k xs)

/-- All of them are kept where none is missing. -/
theorem length_kept_eq_iff (hk : k ≤ xs.length) :
    (kept block keeps xs k).length = k ↔ ∀ i, (hi : i < k) → keep block keeps i xs[i] = true := by
  induction k with
  | zero => exact iff_of_true rfl nofun
  | succ k ih =>
    have hle := length_kept_le block keeps xs k
    rw [kept_succ hk, List.length_append]
    constructor
    · intro hall i hi
      split at hall
      · rename_i hkeep
        rcases Nat.lt_succ_iff_lt_or_eq.mp hi with hlt | rfl
        · exact (ih (Nat.le_of_succ_le hk)).mp (by simpa using hall) i hlt
        · exact hkeep
      · rw [List.length_nil] at hall
        omega
    · intro hall
      rw [if_pos (hall k k.lt_succ_self), (ih (Nat.le_of_succ_le hk)).mpr fun i hi => hall i (by omega)]
      rfl

end

/-! ### The loop -/

section
variable {lists : List Held} {r : Ref} {h : Held} {m : Memory} {block : Callee} {keeps : Bool} {i k : Nat}

/-- The array while it is filtered: what is kept so far has moved to the front. -/
def filtering (block : Callee) (keeps : Bool) (xs : List Value) (i : Nat) : List Value :=
  kept block keeps xs i ++ xs.drop (kept block keeps xs i).length

variable (block keeps) in
theorem length_filtering (xs : List Value) (hi : i ≤ xs.length) :
    (filtering block keeps xs i).length = xs.length := by
  have hle := length_kept_le block keeps xs i
  rw [filtering, List.length_append, List.length_drop]
  omega

/-- What lies ahead is as it was. -/
theorem filtering_get (xs : List Value) (hi : i < xs.length) (hi' : i < (filtering block keeps xs i).length) :
    (filtering block keeps xs i)[i] = xs[i] := by
  have hle := length_kept_le block keeps xs i
  simp only [filtering]
  rw [List.getElem_append_right hle, List.getElem_drop]
  congr 1
  omega

/-- An element that is kept goes behind those in front of it. -/
theorem filtering_put (xs : List Value) (hi : i < xs.length) (hkeep : keep block keeps i xs[i] = true) :
    (filtering block keeps xs i).set (kept block keeps xs i).length xs[i] = filtering block keeps xs (i + 1) := by
  have hlt := (length_kept_le block keeps xs i).trans_lt hi
  simp only [filtering]
  rw [kept_succ hi, if_pos hkeep, List.set_append_right _ _ le_rfl, Nat.sub_self, List.drop_eq_getElem_cons hlt,
    List.set_cons_zero, List.length_append, List.length_singleton, List.append_assoc, List.singleton_append]

theorem filtering_skip (xs : List Value) (hi : i < xs.length) (hkeep : keep block keeps i xs[i] = false) :
    filtering block keeps xs (i + 1) = filtering block keeps xs i := by
  rw [filtering, kept_succ hi, if_neg (by simp [hkeep]), List.append_nil, filtering]

/-- One turn of the loop, where the block goes on. -/
theorem filter_bang_step (fuel : Nat) (hr : lists[r]? = some h) (hi : i < h.elems.length)
    (hgoes : (block i [h.elems[i]]).leaves = none) (hm : Holds m (changed lists r (filtering block keeps h.elems i))) :
    ∃ m', Holds m' (changed lists r (filtering block keeps h.elems (i + 1))) ∧
      filter_bang_each block keeps r (fuel + 1) i (kept block keeps h.elems i).length m =
        filter_bang_each block keeps r fuel (i + 1) (kept block keeps h.elems (i + 1)).length m' := by
  have hlen := length_filtering block keeps h.elems hi.le
  have hi' : i < (filtering block keeps h.elems i).length := by omega
  have hread := read_ok hm (changed_get hr) hi'
  simp only [filtering_get h.elems hi hi'] at hread
  have hcount : i < ({ h with elems := filtering block keeps h.elems i } : Held).elems.length := hi'
  rw [filter_bang_each, bind_ok (len_ok hm (changed_get hr)), if_pos hcount, bind_ok hread]
  simp only [hgoes]
  cases hkeep : keep block keeps i h.elems[i] with
  | true =>
    have hwriter : (kept block keeps h.elems i).length < (filtering block keeps h.elems i).length :=
      (length_kept_le block keeps h.elems i).trans_lt hi'
    obtain ⟨m₁, hwrite, hm₁⟩ := write_ok (v := h.elems[i]) hm (changed_get hr) hwriter
    rw [changed_changed, filtering_put h.elems hi hkeep] at hm₁
    refine ⟨m₁, hm₁, ?_⟩
    have hanswer : val_truthy (block i [h.elems[i]]).value = keeps := of_decide_eq_true hkeep
    rw [if_pos hanswer, bind_ok hread, bind_ok hwrite, kept_succ hi, if_pos hkeep, List.length_append]
    rfl
  | false =>
    refine ⟨m, by rwa [filtering_skip h.elems hi hkeep], ?_⟩
    have hanswer : ¬ val_truthy (block i [h.elems[i]]).value = keeps := of_decide_eq_false hkeep
    rw [if_neg hanswer, kept_succ hi, if_neg (by simp [hkeep]), List.append_nil]

variable (keeps) in
/-- The turns up to `k`. -/
theorem filter_bang_run (fuel : Nat) (hr : lists[r]? = some h) (hk : k ≤ h.elems.length)
    (hgoes : ∀ i, (hi : i < k) → (block i [h.elems[i]]).leaves = none) (hm : Holds m lists) :
    ∃ m', Holds m' (changed lists r (filtering block keeps h.elems k)) ∧
      filter_bang_each block keeps r (fuel + k) 0 0 m =
        filter_bang_each block keeps r fuel k (kept block keeps h.elems k).length m' := by
  induction k generalizing fuel with
  | zero => exact ⟨m, by rwa [filtering, kept_zero, List.length_nil, List.drop_zero, List.nil_append, changed_same hr], rfl⟩
  | succ k ih =>
    obtain ⟨m₁, hm₁, hrun⟩ := ih (fuel + 1) (Nat.le_of_succ_le hk) fun i hi => hgoes i (by omega)
    obtain ⟨m₂, hm₂, hturn⟩ := filter_bang_step fuel hr hk (hgoes k k.lt_succ_self) hm₁
    refine ⟨m₂, hm₂, ?_⟩
    rw [← hturn, ← hrun]
    congr 1
    omega

variable (keeps) in
/-- The block is left at `k`. -/
theorem filter_bang_leaves (always : Bool) {out : Value} (hr : lists[r]? = some h) (hf : h.frozen = false)
    (hk : k < h.elems.length) (hgoes : ∀ i, (hi : i < k) → (block i [h.elems[i]]).leaves = none)
    (hleaves : (block k [h.elems[k]]).leaves = some out) :
    ComesTo (fun fuel => filter_bang block keeps always fuel r) lists r
      (answers (filtering block keeps h.elems k) (.value out)) := by
  refine comes_to_answer (k + 1) fun fuel hfuel m hm => ?_
  obtain ⟨rest, rfl⟩ : ∃ rest, fuel = rest + 1 + k := ⟨fuel - 1 - k, by omega⟩
  obtain ⟨m', hm', hrun⟩ := filter_bang_run keeps (rest + 1) hr hk.le hgoes hm
  refine ⟨m', ?_, hm'⟩
  have hlen := length_filtering block keeps h.elems hk.le
  have hk' : k < (filtering block keeps h.elems k).length := by omega
  have hread := read_ok hm' (changed_get hr) hk'
  simp only [filtering_get h.elems hk hk'] at hread
  have hcount : k < ({ h with elems := filtering block keeps h.elems k } : Held).elems.length := hk'
  have hexit : filter_bang_each block keeps r (rest + 1) k (kept block keeps h.elems k).length m' =
      .ok (.error out, m') := by
    rw [filter_bang_each, bind_ok (len_ok hm' (changed_get hr)), if_pos hcount, bind_ok hread]
    simp only [hleaves]
    rfl
  rw [filter_bang, unless_frozen_ok hm hr hf, bind_ok (len_ok hm hr), bind_ok (hrun.trans hexit)]
  rfl

variable (block keeps) in
/-- It never is. -/
theorem filter_bang_each_ends (fuel : Nat) (hr : lists[r]? = some h)
    (hgoes : ∀ i, (hi : i < h.elems.length) → (block i [h.elems[i]]).leaves = none) (hm : Holds m lists)
    (hfuel : h.elems.length < fuel) :
    ∃ m', filter_bang_each block keeps r fuel 0 0 m =
        .ok (.ok (kept block keeps h.elems h.elems.length).length, m') ∧
      Holds m' (changed lists r (filtering block keeps h.elems h.elems.length)) := by
  obtain ⟨rest, rfl⟩ : ∃ rest, fuel = rest + 1 + h.elems.length := ⟨fuel - 1 - h.elems.length, by omega⟩
  obtain ⟨m', hm', hrun⟩ := filter_bang_run keeps (rest + 1) hr le_rfl hgoes hm
  have hlen := length_filtering block keeps h.elems le_rfl
  have hdone : ¬ h.elems.length < ({ h with elems := filtering block keeps h.elems h.elems.length } : Held).elems.length :=
    hlen.not_gt
  refine ⟨m', hrun.trans ?_, hm'⟩
  rw [filter_bang_each, bind_ok (len_ok hm' (changed_get hr)), if_neg hdone]
  rfl

/-- Then the array is cut off behind what is kept. -/
theorem filtering_cut (hr : lists[r]? = some h)
    (hm : Holds m (changed lists r (filtering block keeps h.elems h.elems.length))) :
    ∃ m', set_len r (kept block keeps h.elems h.elems.length).length m = .ok ((), m') ∧
      Holds m' (changed lists r (kept block keeps h.elems h.elems.length)) := by
  have hlen := length_filtering block keeps h.elems le_rfl
  have hle := length_kept_le block keeps h.elems h.elems.length
  obtain ⟨m', hset, hm'⟩ := set_len_ok (n := (kept block keeps h.elems h.elems.length).length) hm (changed_get hr)
    (hle.trans hlen.ge)
  refine ⟨m', hset, ?_⟩
  simpa [filtering] using hm'

variable (keeps) in
theorem filter_bang_ends (always : Bool) (hr : lists[r]? = some h) (hf : h.frozen = false)
    (hgoes : ∀ i, (hi : i < h.elems.length) → (block i [h.elems[i]]).leaves = none) :
    ComesTo (fun fuel => filter_bang block keeps always fuel r) lists r
      (answers (kept block keeps h.elems h.elems.length)
        (.value (if always || (kept block keeps h.elems h.elems.length).length ≠ h.elems.length then .array r
          else .nil))) := by
  refine comes_to_answer (h.elems.length + 1) fun fuel hfuel m hm => ?_
  obtain ⟨m₁, heach, hm₁⟩ := filter_bang_each_ends block keeps fuel hr hgoes hm hfuel
  obtain ⟨m₂, hset, hm₂⟩ := filtering_cut hr hm₁
  refine ⟨m₂, ?_, hm₂⟩
  rw [filter_bang, unless_frozen_ok hm hr hf, bind_ok (len_ok hm hr), bind_ok heach]
  simp only
  rw [bind_ok hset]
  rfl

end

/-! ### The four filters -/

/-- The methods; `filter!` is `select!`. -/
inductive Filter where
  | select_bang | keep_if | reject_bang | delete_if

def Filter.run : Filter → Callee → Nat → Ref → Run Reply
  | .select_bang => arrays.select_bang
  | .keep_if => arrays.keep_if
  | .reject_bang => arrays.reject_bang
  | .delete_if => arrays.delete_if

/-- Whether the block has to be truthy for an element to be kept. -/
def Filter.keeps : Filter → Bool
  | .select_bang | .keep_if => true
  | .reject_bang | .delete_if => false

def Filter.always : Filter → Bool
  | .keep_if | .delete_if => true
  | .select_bang | .reject_bang => false

theorem Filter.run_eq (filter : Filter) (block : Callee) (fuel : Nat) (r : Ref) :
    filter.run block fuel r = filter_bang block filter.keeps filter.always fuel r := by
  cases filter <;> rfl

/-- Behind a call that was left at `k` the array is what is kept of the first `k`
elements, and the others. -/
def LosesNothing (filter : Filter) (block : Callee) (lists : List Held) (r : Ref) (xs : List Value) (k : Nat) : Prop :=
  ∃ e, ComesTo (fun fuel => filter.run block fuel r) lists r e ∧ e.elems = kept block filter.keeps xs k ++ xs.drop k

section
variable {lists : List Held} {r : Ref} {h : Held} {block : Callee} {k : Nat}

/-- It is so exactly where nothing is removed in front of `k`. -/
theorem loses_nothing_iff (filter : Filter) (hr : lists[r]? = some h) (hf : h.frozen = false) (hk : k < h.elems.length)
    (hordinary : ∀ i, (hi : i < k) → (block i [h.elems[i]]).Ordinary)
    (hleaves : (block k [h.elems[k]]).leaves.isSome) :
    LosesNothing filter block lists r h.elems k ↔
      ∀ i, (hi : i < k) → val_truthy (block i [h.elems[i]]).value = filter.keeps := by
  obtain ⟨out, hout⟩ := Option.isSome_iff_exists.mp hleaves
  have hcomes := filter_bang_leaves filter.keeps filter.always hr hf hk
    (fun i hi => (hordinary i hi).leaves_eq) hout
  have hrun : ComesTo (fun fuel => filter.run block fuel r) lists r _ := hcomes.congr fun fuel m _ => by rw [filter.run_eq]
  have hall := (length_kept_eq_iff block filter.keeps hk.le).trans
    (forall₂_congr fun i hi => decide_eq_true_iff)
  rw [← hall]
  constructor
  · rintro ⟨e, he, helems⟩
    have hlength := congrArg List.length ((hrun.elems_eq hr he).trans helems)
    have hle := length_kept_le block filter.keeps h.elems k
    simp only [answers, filtering, List.length_append, List.length_drop] at hlength
    omega
  · intro hlength
    refine ⟨_, hrun, ?_⟩
    rw [answers, filtering, hlength]

/-! ### Instances -/

/-- `{ |x| break if x == 3; x == 2 }` -/
def breaking : Callee := fun _ vs =>
  { value := match vs with | [.int x] => if x = 3 then .brk .nil else .bool (x = 2) | _ => .nil, errored := false }

/-- Four Integers. -/
def four : List Held := [{ elems := [.int 1, .int 2, .int 3, .int 4], frozen := false }]

theorem loses_nothing_iff_third :
    LosesNothing .delete_if breaking four 0 four[0].elems 2 ↔
      ∀ i, (hi : i < 2) → val_truthy (breaking i [four[0].elems.get ⟨i, hi.trans (by decide)⟩]).value = false :=
  loses_nothing_iff .delete_if rfl rfl (by decide) (fun i hi => by interval_cases i <;> exact ⟨rfl, rfl⟩) rfl

/-- `a.select! { |x| break if x == 3; x == 2 }` leaves the second element twice. -/
theorem selected_twice : ¬ LosesNothing .select_bang breaking four 0 four[0].elems 2 := by
  rintro ⟨e, he, helems⟩
  have hgoes : ∀ i, (hi : i < 2) → (breaking i [four[0].elems.get ⟨i, hi.trans (by decide)⟩]).leaves = none := by
    intro i hi
    interval_cases i <;> rfl
  have hcomes : ComesTo (fun fuel => filter_bang breaking true false fuel 0) four 0
      (answers (filtering breaking true four[0].elems 2) (.value .nil)) :=
    filter_bang_leaves true false rfl rfl (by decide) hgoes rfl
  have hlength := congrArg List.length ((ComesTo.elems_eq (h := four[0]) rfl hcomes he).trans helems)
  revert hlength
  decide

end

end stoned.arrays
