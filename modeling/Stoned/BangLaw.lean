import Stoned.IteratorRun

namespace stoned.arrays

/-! How the methods that change an array agree with their plain forms. -/

/-- What the methods call apart from blocks, and what `==` sees of hashes. -/
structure Surroundings where
  hashes : List KeyedHash
  depth : Nat
  spaceship : Callee
  to_ary : Callee

/-- The methods that have both forms, with their blocks and arguments. -/
inductive Twin where
  | sort (blk : Option Callee)
  | uniq (blk : Option Callee)
  | compact
  | flatten (args : List Value)
  | map (block : Callee)
  | select (block : Callee)
  | reject (block : Callee)
  | rotate (args : List Value)
  | reverse

/-- What a plain form says of an array: a list, or that it is no use. -/
inductive Outcome where
  | list (ys : List Value)
  | raised (klass message : String)

def Outcome.Told (lists : List Held) (reply : Reply) : Outcome → Prop
  | .list ys => ∃ q d, reply = .value (.array q) ∧ lists[q]? = some d ∧ d.elems = ys
  | .raised klass message => reply = .raised klass message

/-- With enough turns of its loops a method comes to an outcome, and leaves the
arrays there are as they were. -/
def Returns (method : Nat → Run Reply) (lists : List Held) (o : Outcome) : Prop :=
  ∃ enough, ∀ fuel, enough ≤ fuel → ∀ m, Holds m lists → ∃ m' more reply, method fuel m = .ok (reply, m') ∧
    Holds m' (lists ++ more) ∧ o.Told (lists ++ more) reply

/-- With enough turns of its loops a method answers, and has changed one of the arrays. -/
def Leaves (method : Nat → Run Reply) (lists : List Held) (r : Ref) (ys : List Value) (reply : Reply) : Prop :=
  ∃ enough, ∀ fuel, enough ≤ fuel → ∀ m, Holds m lists → ∃ m' more, method fuel m = .ok (reply, m') ∧
    Holds m' (changed lists r ys ++ more)

/-- No element is an array or gives one. The objects are asked in turn. -/
def nothing_to_flatten (to_ary : Callee) : Nat → List Value → Bool
  | _, [] => true
  | _, .array _ :: _ => false
  | n, .object obj :: rest =>
    match (to_ary n [.object obj]).value with
    | .array _ => false
    | _ => nothing_to_flatten to_ary (n + 1) rest
  | n, _ :: rest => nothing_to_flatten to_ary n rest

/-- Whether a list differs from another one, as far as the comparisons answer. -/
def changes (equal : Value → Value → Option Bool) (xs ys : List Value) : Option Bool :=
  if ys.length ≠ xs.length then some true else differs equal xs ys

namespace Twin
section
variable (around : Surroundings)

def plain (fuel : Nat) (r : Ref) : Twin → Run Reply
  | .sort blk => arrays.sort blk around.spaceship fuel r
  | .uniq blk => arrays.uniq around.hashes around.depth fuel r blk
  | .compact => arrays.compact fuel r
  | .flatten args => arrays.flatten around.to_ary fuel r args
  | .map block => arrays.map block fuel r
  | .select block => arrays.select block fuel r
  | .reject block => arrays.reject block fuel r
  | .rotate args => arrays.rotate fuel r args
  | .reverse => arrays.reverse r

def bang (fuel : Nat) (r : Ref) : Twin → Run Reply
  | .sort blk => sort_bang blk around.spaceship fuel r
  | .uniq blk => uniq_bang around.hashes around.depth fuel r blk
  | .compact => compact_bang fuel r
  | .flatten args => flatten_bang around.to_ary around.hashes around.depth fuel r args
  | .map block => map_bang block fuel r
  | .select block => select_bang block fuel r
  | .reject block => reject_bang block fuel r
  | .rotate args => rotate_bang fuel r args
  | .reverse => reverse_bang fuel r

/-- The block, if there is one, returns ordinary values. -/
def Ordinary : Twin → Prop
  | .sort blk | .uniq blk => ∀ block ∈ blk, ∀ n vs, (block n vs).Ordinary
  | .map block | .select block | .reject block => ∀ n vs, (block n vs).Ordinary
  | .compact | .flatten _ | .rotate _ | .reverse => True

/-- When the form that changes the array is to answer nil, given what was in the
array and what is in it now. -/
def Idle (xs ys : List Value) : Twin → Prop
  | .uniq _ | .compact | .select _ | .reject _ => ys = xs
  | .flatten args => flatten_depth args = 0 ∨ nothing_to_flatten around.to_ary 0 xs = true
  | .sort _ | .map _ | .rotate _ | .reverse => False

/-- The array is left with what the plain form says, and as it was where the plain
form raises, which is passed on. -/
def Agrees (twin : Twin) (lists : List Held) (r : Ref) (xs : List Value) : Prop :=
  ∀ o, Returns (fun fuel => twin.plain around fuel r) lists o →
    match o with
    | .list ys => ∃ v, Leaves (fun fuel => twin.bang around fuel r) lists r ys (.value v) ∧
        (v = .nil ∨ v = .array r) ∧ (v = .nil ↔ twin.Idle around xs ys)
    | .raised klass message => Leaves (fun fuel => twin.bang around fuel r) lists r xs (.raised klass message)

/-- Where it is so: no comparison fails while the elements are sorted, and comparing
what `flatten` gives with what was in the array tells whether something was taken
out of an array. -/
def Meets (twin : Twin) (lists : List Held) (r : Ref) (xs : List Value) : Prop :=
  match twin with
  | .sort blk => ∃ ys, list.sorted (sort_less blk around.spaceship) xs = .ok ys
  | .flatten args => ∀ ys, Returns (fun fuel => arrays.flatten around.to_ary fuel r args) lists (.list ys) →
      ∃ changed, changes (equal_in around.hashes around.depth (lists ++ [{ elems := ys, frozen := false }])) xs ys =
        some changed ∧ (changed = false ↔ flatten_depth args = 0 ∨ nothing_to_flatten around.to_ary 0 xs = true)
  | _ => True

end
end Twin

section
variable {around : Surroundings} {lists : List Held} {r : Ref} {h : Held} {m m' : Memory} {block : Callee} {keeps : Bool}
  {xs ys zs : List Value} {o o' : Outcome} {method : Nat → Run Reply} {reply reply' : Reply}

/-! ### Outcomes -/

theorem Outcome.Told.unique (ho : o.Told lists reply) (ho' : o'.Told lists reply) : o = o' := by
  cases o with
  | list ys =>
    obtain ⟨q, d, rfl, hd, rfl⟩ := ho
    cases o' with
    | list ys' =>
      obtain ⟨q', d', hq, hd', rfl⟩ := ho'
      cases hq
      rw [hd, Option.some.injEq] at hd'
      rw [hd']
    | raised => cases ho'
  | raised klass message =>
    obtain rfl := ho
    cases o' with
    | list ys' =>
      obtain ⟨q', d', hq, -⟩ := ho'
      cases hq
    | raised => cases ho'; rfl

/-- A method comes to one outcome only. -/
theorem Returns.unique (ho : Returns method lists o) (ho' : Returns method lists o') : o = o' := by
  obtain ⟨enough, hrun⟩ := ho
  obtain ⟨enough', hrun'⟩ := ho'
  obtain ⟨m, more, reply, hm, hholds, htold⟩ := hrun (max enough enough') (by omega) _ (holds_tight lists)
  obtain ⟨m', more', reply', hm', hholds', htold'⟩ := hrun' (max enough enough') (by omega) _ (holds_tight lists)
  rw [hm, Except.ok.injEq, Prod.mk.injEq] at hm'
  obtain ⟨rfl, rfl⟩ := hm'
  rw [← hholds.unique hholds'] at htold'
  exact htold.unique htold'

/-- It gives one answer only. -/
theorem Leaves.reply_eq (hleaves : Leaves method lists r ys reply) (hleaves' : Leaves method lists r zs reply') :
    reply = reply' := by
  obtain ⟨enough, hrun⟩ := hleaves
  obtain ⟨enough', hrun'⟩ := hleaves'
  obtain ⟨m, more, hm, -⟩ := hrun (max enough enough') (by omega) _ (holds_tight lists)
  obtain ⟨m', more', hm', -⟩ := hrun' (max enough enough') (by omega) _ (holds_tight lists)
  rw [hm, Except.ok.injEq, Prod.mk.injEq] at hm'
  exact hm'.1

theorem ComesTo.leaves {e : Effect} (hcomes : ComesTo method lists r e) (hreply : e.reply lists.length = reply) :
    Leaves method lists r e.elems reply := by
  obtain ⟨enough, hrun⟩ := hcomes
  refine ⟨enough, fun fuel hfuel m hm => ?_⟩
  obtain ⟨m', hm', hholds⟩ := hrun fuel hfuel m hm
  exact ⟨m', _, hreply ▸ hm', hholds⟩

/-- The answer is a new array. -/
theorem returns_new (enough : Nat) (hrun : ∀ fuel, enough ≤ fuel → ∀ m, Holds m lists → ∃ m',
    method fuel m = .ok (.value (.array lists.length), m') ∧ Holds m' (lists ++ [{ elems := ys, frozen := false }])) :
    Returns method lists (.list ys) := by
  refine ⟨enough, fun fuel hfuel m hm => ?_⟩
  obtain ⟨m', hm', hholds⟩ := hrun fuel hfuel m hm
  have hmade : (lists ++ [({ elems := ys, frozen := false } : Held)])[lists.length]? =
      some { elems := ys, frozen := false } := by simp
  exact ⟨m', _, _, hm', hholds, _, _, rfl, hmade, rfl⟩

/-- To agree it is enough to come to one list and to leave it. -/
theorem agrees_of_list {twin : Twin} {v : Value} (hplain : Returns (fun fuel => twin.plain around fuel r) lists (.list ys))
    (hbang : Leaves (fun fuel => twin.bang around fuel r) lists r ys (.value v)) (hv : v = .nil ∨ v = .array r)
    (hnil : v = .nil ↔ twin.Idle around xs ys) : twin.Agrees around lists r xs := by
  intro o ho
  obtain rfl := ho.unique hplain
  exact ⟨v, hbang, hv, hnil⟩

/-! ### map, select, reject, compact -/

theorem map_returns (hr : lists[r]? = some h)
    (hgoes : ∀ i, (hi : i < h.elems.length) → (block i [h.elems[i]]).leaves = none) :
    Returns (fun fuel => map block fuel r) lists (.list (mapped block h.elems)) := by
  refine returns_new (h.elems.length + 1) fun fuel hfuel m hm => ?_
  obtain ⟨m₁, hnew, hm₁⟩ := new_ok hm
  obtain ⟨hmade, hr₁⟩ := new_held hr []
  obtain ⟨m₂, heach, hm₂⟩ := map_each_ok fuel 0 (lt_of_get hr).ne hm₁ hr₁ hmade hgoes (by omega)
  rw [changed_new, List.nil_append, List.drop_zero] at hm₂
  exact ⟨m₂, by rw [map, bind_ok hnew, bind_ok heach]; rfl, hm₂⟩

theorem map_bang_leaves (hr : lists[r]? = some h) (hf : h.frozen = false)
    (hgoes : ∀ i, (hi : i < h.elems.length) → (block i [h.elems[i]]).leaves = none) :
    Leaves (fun fuel => map_bang block fuel r) lists r (mapped block h.elems) (.value (.array r)) := by
  have hcomes : ComesTo (fun fuel => map_bang block fuel r) lists r
      (answers (mapped block h.elems) (.value (.array r))) := by
    refine comes_to_answer (h.elems.length + 1) fun fuel hfuel m hm => ?_
    have hm₀ : Holds m (changed lists r ((mapped block h.elems).take 0 ++ h.elems.drop 0)) := by
      rwa [List.take_zero, List.drop_zero, List.nil_append, changed_same hr]
    obtain ⟨m', heach, hm'⟩ := map_bang_each_ok fuel 0 hr hm₀ hgoes (by omega)
    refine ⟨m', ?_, hm'⟩
    rw [map_bang, unless_frozen_ok hm hr hf, bind_ok heach]
    rfl
  exact hcomes.leaves rfl

theorem filter_returns (block : Callee) (keeps : Bool) (hr : lists[r]? = some h)
    (hgoes : ∀ i, (hi : i < h.elems.length) → (block i [h.elems[i]]).leaves = none) :
    Returns (fun fuel => filter block keeps fuel r) lists (.list (kept block keeps h.elems h.elems.length)) := by
  refine returns_new (h.elems.length + 1) fun fuel hfuel m hm => ?_
  obtain ⟨m₁, hnew, hm₁⟩ := new_ok hm
  obtain ⟨hmade, hr₁⟩ := new_held hr []
  obtain ⟨m₂, heach, hm₂⟩ := filter_each_ok fuel 0 (lt_of_get hr).ne hm₁ hr₁ hmade rfl (Nat.zero_le _) hgoes (by omega)
  rw [changed_new] at hm₂
  exact ⟨m₂, by rw [filter, bind_ok hnew, bind_ok heach]; rfl, hm₂⟩

/-- What is kept is everything where nothing is missing. -/
theorem kept_eq_iff (block : Callee) (keeps : Bool) (xs : List Value) :
    kept block keeps xs xs.length = xs ↔ (kept block keeps xs xs.length).length = xs.length := by
  have hsub := kept_sublist block keeps xs xs.length
  rw [List.take_length] at hsub
  exact ⟨congrArg List.length, hsub.eq_of_length⟩

theorem filter_answer {kept_count count : Nat} :
    (if false || kept_count ≠ count then Value.array r else .nil) = .nil ↔ kept_count = count := by
  by_cases hsame : kept_count = count <;> simp [hsame]

theorem answer_or {c : Bool} : (if c then Value.array r else .nil) = .nil ∨ (if c then Value.array r else .nil) = .array r := by
  cases c
  · exact .inl rfl
  · exact .inr rfl

/-- The two forms of a filter. -/
theorem filter_agrees {twin : Twin} (hr : lists[r]? = some h)
    (hplain : ∀ fuel, twin.plain around fuel r = filter block keeps fuel r)
    (hbang : ∀ fuel, twin.bang around fuel r = filter_bang block keeps false fuel r)
    (hidle : ∀ ys, twin.Idle around h.elems ys ↔ ys = h.elems) (hf : h.frozen = false)
    (hgoes : ∀ i, (hi : i < h.elems.length) → (block i [h.elems[i]]).leaves = none) :
    twin.Agrees around lists r h.elems := by
  have hreturns := filter_returns block keeps hr hgoes
  have hleaves := (filter_bang_ends keeps false hr hf hgoes).leaves rfl
  simp only [← hplain] at hreturns
  simp only [← hbang] at hleaves
  refine agrees_of_list hreturns hleaves answer_or ?_
  rw [filter_answer, hidle, kept_eq_iff]

theorem compact_eq (fuel : Nat) : compact fuel r m = filter not_nil true fuel r m := by
  obtain ⟨q, m₁, hnew⟩ : ∃ q m₁, val_array_new m = .ok (q, m₁) := ⟨_, _, rfl⟩
  have heach := compact_into_eq (r := r) (q := q) (m := m₁) (i := 0) fuel
  rw [compact, filter, bind_ok hnew, bind_ok hnew]
  cases hinto : compact_into r q fuel 0 m₁ with
  | error reason =>
    rw [hinto] at heach
    rw [bind_error hinto, bind_error heach]
  | ok out =>
    rw [hinto] at heach
    rw [bind_ok hinto, bind_ok heach]

theorem compact_returns (hr : lists[r]? = some h) :
    Returns (fun fuel => compact fuel r) lists (.list (kept not_nil true h.elems h.elems.length)) := by
  obtain ⟨enough, hrun⟩ := filter_returns not_nil true hr fun _ _ => rfl
  refine ⟨enough, fun fuel hfuel m hm => ?_⟩
  simp only [compact_eq]
  exact hrun fuel hfuel m hm

theorem compact_bang_leaves (hr : lists[r]? = some h) (hf : h.frozen = false) :
    Leaves (fun fuel => compact_bang fuel r) lists r (kept not_nil true h.elems h.elems.length)
      (.value (if false || (kept not_nil true h.elems h.elems.length).length ≠ h.elems.length then .array r
        else .nil)) := by
  have hcomes : ComesTo (fun fuel => compact_bang fuel r) lists r
      (answers (kept not_nil true h.elems h.elems.length)
        (.value (if (kept not_nil true h.elems h.elems.length).length ≠ h.elems.length then .array r else .nil))) := by
    refine comes_to_answer (h.elems.length + 1) fun fuel hfuel m hm => ?_
    obtain ⟨m₁, heach, hm₁⟩ := filter_bang_each_ends not_nil true fuel hr (fun _ _ => rfl) hm hfuel
    obtain ⟨m₂, hset, hm₂⟩ := filtering_cut hr hm₁
    rw [compact_bang_each_eq] at heach
    cases hloop : compact_bang_each r fuel 0 0 m with
    | error reason =>
      rw [hloop] at heach
      cases heach
    | ok out =>
      rw [hloop] at heach
      obtain ⟨w, m'⟩ := out
      cases heach
      refine ⟨m₂, ?_, hm₂⟩
      rw [compact_bang, unless_frozen_ok hm hr hf, bind_ok hloop, bind_ok (len_ok hm₁ (changed_get hr)), bind_ok hset]
      simp only [length_filtering not_nil true h.elems le_rfl]
      rfl
  exact hcomes.leaves (by simp [answers])

/-! ### rotate and reverse -/

theorem rotate_returns (args : List Value) (hr : lists[r]? = some h) :
    Returns (fun fuel => rotate fuel r args) lists (.list (h.elems.rotate (rotation args h.elems.length))) := by
  cases hxs : h.elems with
  | nil =>
    refine ⟨0, fun fuel _ m hm => ⟨m, [], _, ?_, by rwa [List.append_nil], r, h, rfl, by rwa [List.append_nil], ?_⟩⟩
    · have hlen := len_ok hm hr
      rw [hxs] at hlen
      simp only
      rw [rotate, bind_ok hlen]
      rfl
    · rw [hxs, List.rotate_nil]
  | cons x xs =>
    rw [← hxs]
    refine returns_new (h.elems.length + 1) fun fuel hfuel m hm => ?_
    have hne : ¬ h.elems.length = 0 := by simp [hxs]
    obtain ⟨m₁, hnew, hm₁⟩ := new_ok hm
    obtain ⟨hmade, hr₁⟩ := new_held hr []
    obtain ⟨m₂, heach, hm₂⟩ := rotate_each_ok fuel (rotation args h.elems.length) 0 (lt_of_get hr).ne hm₁ hr₁ hmade
      (by omega)
    rw [changed_new, List.nil_append, List.drop_zero] at hm₂
    refine ⟨m₂, ?_, hm₂⟩
    rw [rotate, bind_ok (len_ok hm hr), if_neg hne, bind_ok hnew, bind_ok heach]
    rfl

theorem rotate_bang_leaves (args : List Value) (hr : lists[r]? = some h) :
    Leaves (fun fuel => rotate_bang fuel r args) lists r (h.elems.rotate (rotation args h.elems.length))
      (.value (.array r)) := by
  refine ⟨h.elems.length + 1, fun fuel hfuel m hm => ?_⟩
  by_cases hnone : h.elems.length = 0
  · refine ⟨m, [], ?_, ?_⟩
    · simp only
      rw [rotate_bang, bind_ok (len_ok hm hr), if_pos hnone]
      rfl
    · rw [List.length_eq_zero_iff.mp hnone, List.rotate_nil, ← List.length_eq_zero_iff.mp hnone, changed_same hr,
        List.append_nil]
      exact hm
  · have hlt := lt_of_get hr
    obtain ⟨ys, hys⟩ : ∃ ys, h.elems.rotate (rotation args h.elems.length) = ys := ⟨_, rfl⟩
    have hsame : ys.length = h.elems.length := by rw [← hys, List.length_rotate]
    obtain ⟨m₁, hnew, hm₁⟩ := new_ok hm
    obtain ⟨hmade, hr₁⟩ := new_held hr []
    obtain ⟨m₂, heach, hm₂⟩ := rotate_each_ok fuel (rotation args h.elems.length) 0 hlt.ne hm₁ hr₁ hmade (by omega)
    rw [changed_new, List.nil_append, List.drop_zero, hys] at hm₂
    obtain ⟨hmade₂, hr₂⟩ := new_held hr ys
    have hm₂' : Holds m₂ (changed (lists ++ [{ elems := ys, frozen := false }]) r (ys.take 0 ++ h.elems.drop 0)) := by
      rwa [List.take_zero, List.drop_zero, List.nil_append, changed_same hr₂]
    obtain ⟨m₃, hcopy, hm₃⟩ := copy_while_ok (pure h.elems.length) fuel 0 hlt.ne' hr₂ hmade₂ hsame hm₂'
      (fun m _ _ _ => by rw [hsame]; rfl) (by omega)
    rw [changed_append hlt] at hm₃
    refine ⟨m₃, _, ?_, hys.symm ▸ hm₃⟩
    simp only
    rw [rotate_bang, bind_ok (len_ok hm hr), if_neg hnone, bind_ok hnew, bind_ok heach, bind_ok hcopy]
    rfl

theorem reverse_returns (hr : lists[r]? = some h) :
    Returns (fun _ => reverse r) lists (.list h.elems.reverse) := by
  refine returns_new 0 fun fuel _ m hm => ?_
  obtain ⟨m₁, hnew, hm₁⟩ := new_ok hm
  obtain ⟨hmade, hr₁⟩ := new_held hr []
  obtain ⟨m₂, heach, hm₂⟩ := reverse_each_ok (lt_of_get hr).ne hm₁ hr₁ hmade le_rfl
  rw [changed_new, List.nil_append, List.take_length] at hm₂
  refine ⟨m₂, ?_, hm₂⟩
  rw [reverse, bind_ok hnew, bind_ok (len_ok hm₁ hr₁), bind_ok heach]
  rfl

theorem reverse_bang_leaves (hr : lists[r]? = some h) (hf : h.frozen = false) :
    Leaves (fun fuel => reverse_bang fuel r) lists r h.elems.reverse (.value (.array r)) := by
  have hcomes : ComesTo (fun fuel => reverse_bang fuel r) lists r (answers h.elems.reverse (.value (.array r))) := by
    refine comes_to_answer (h.elems.length + 1) fun fuel hfuel m hm => ?_
    have hm₀ : Holds m (changed lists r h.elems) := by rwa [changed_same hr]
    obtain ⟨m', heach, hm'⟩ := swap_each_ok fuel 0 hr hm₀ (.start _) (by omega)
    refine ⟨m', ?_, hm'⟩
    rw [reverse_bang, unless_frozen_ok hm hr hf, bind_ok (len_ok hm hr), bind_ok heach]
    rfl
  exact hcomes.leaves rfl

/-! ### sort -/

section
variable {blk : Option Callee} {spaceship : Callee}

theorem sort_less_error (hblk : ∀ block ∈ blk, ∀ n vs, (block n vs).Ordinary) (n : Nat) (key prev : Value)
    (reply : Reply) (herror : (sort_less blk spaceship n key prev).1 = .error reply) : reply = comparison_failed := by
  cases blk with
  | some block =>
    rw [sort_less, if_neg (by rw [(hblk block rfl n [key, prev]).2]; nofun)] at herror
    split at herror
    · cases herror
    · cases herror
      rfl
  | none =>
    simp only [sort_less] at herror
    split at herror
    all_goals first
      | cases herror
      | split at herror
        · cases herror
        · cases herror
          rfl

variable (spaceship) in
/-- Sorting gives a list, or fails to compare. -/
theorem sort_returns (hr : lists[r]? = some h) (hblk : ∀ block ∈ blk, ∀ n vs, (block n vs).Ordinary) :
    Returns (fun fuel => sort blk spaceship fuel r) lists
      (match list.sorted (sort_less blk spaceship) h.elems with
      | .ok ys => .list ys
      | .error _ => .raised "ArgumentError" "comparison of elements failed") := by
  cases hsorted : list.sorted (sort_less blk spaceship) h.elems with
  | ok ys =>
    refine returns_new (2 * h.elems.length + 2) fun fuel hfuel m hm => ?_
    obtain ⟨m', zs, hm', hrun⟩ := sort_ok blk spaceship fuel hm hr (by omega)
    simp only [hsorted] at hrun
    obtain ⟨hrun, rfl⟩ := hrun
    exact ⟨m', hrun, hm'⟩
  | error reply =>
    obtain rfl := list.sort_on_error (sort_less_error hblk) hsorted
    refine ⟨2 * h.elems.length + 2, fun fuel hfuel m hm => ?_⟩
    obtain ⟨m', zs, hm', hrun⟩ := sort_ok blk spaceship fuel hm hr (by omega)
    simp only [hsorted] at hrun
    exact ⟨m', _, _, hrun, hm', rfl⟩

variable (spaceship) in
/-- The array is left as it was where sorting fails, and answered either way. -/
theorem sort_bang_leaves (hr : lists[r]? = some h) (hf : h.frozen = false)
    (hblk : ∀ block ∈ blk, ∀ n vs, (block n vs).Ordinary) :
    Leaves (fun fuel => sort_bang blk spaceship fuel r) lists r
      (match list.sorted (sort_less blk spaceship) h.elems with
      | .ok ys => ys
      | .error _ => h.elems) (.value (.array r)) := by
  have hlt := lt_of_get hr
  refine ⟨2 * h.elems.length + 2, fun fuel hfuel m hm => ?_⟩
  obtain ⟨m₁, m₂, hnew, hcopy, hm₂⟩ := copied (len r) fuel 0 hm hr (fun _ _ hm hs => len_ok hm hs) le_rfl (by omega)
  rw [List.drop_zero, Nat.sub_zero, List.take_length] at hm₂
  obtain ⟨hmade, hr₂⟩ := new_held hr h.elems
  obtain ⟨m₃, zs, hm₃, hsort⟩ := sort_ok blk spaceship fuel hm₂ hmade (by simp only; omega)
  obtain ⟨hmade₃, hr₃⟩ := new_held hr₂ zs
  cases hsorted : list.sorted (sort_less blk spaceship) h.elems with
  | error reply =>
    simp only [hsorted] at hsort ⊢
    obtain rfl := list.sort_on_error (sort_less_error hblk) hsorted
    refine ⟨m₃, [{ elems := h.elems, frozen := false }, { elems := zs, frozen := false }], ?_, ?_⟩
    · rw [sort_bang, unless_frozen_ok hm hr hf, bind_ok hnew, bind_ok hcopy, bind_ok hsort]
      rfl
    · rw [changed_same hr]
      simpa using hm₃
  | ok ys =>
    simp only [hsorted] at hsort ⊢
    obtain ⟨hsort, rfl⟩ := hsort
    have hsame : zs.length = h.elems.length := list.length_sorted hsorted
    have hne : (lists ++ [({ elems := h.elems, frozen := false } : Held)]).length ≠ r := by
      rw [List.length_append]
      exact (hlt.trans (Nat.lt_succ_self _)).ne'
    have hm₃' : Holds m₃ (changed (lists ++ [{ elems := h.elems, frozen := false }] ++ [{ elems := zs, frozen := false }]) r
        (zs.take 0 ++ h.elems.drop 0)) := by
      rwa [List.take_zero, List.drop_zero, List.nil_append, changed_same hr₃]
    obtain ⟨m₄, hover, hm₄⟩ := copy_while_ok (len _) fuel 0 hne hr₃ hmade₃ hsame hm₃' (fun _ _ hm hs => len_ok hm hs) (by omega)
    refine ⟨m₄, [{ elems := h.elems, frozen := false }, { elems := zs, frozen := false }], ?_, ?_⟩
    · rw [sort_bang, unless_frozen_ok hm hr hf, bind_ok hnew, bind_ok hcopy, bind_ok hsort]
      simp only
      rw [bind_ok hover]
      rfl
    · rw [List.append_assoc, changed_append hlt] at hm₄
      exact hm₄

/-- The two forms of `sort` agree where no comparison fails. -/
theorem sort_agrees_iff (hr : lists[r]? = some h) (hf : h.frozen = false)
    (hblk : ∀ block ∈ blk, ∀ n vs, (block n vs).Ordinary) :
    (Twin.sort blk).Agrees around lists r h.elems ↔
      ∃ ys, list.sorted (sort_less blk around.spaceship) h.elems = .ok ys := by
  have hreturns := sort_returns around.spaceship hr hblk
  have hleaves := sort_bang_leaves around.spaceship hr hf hblk
  cases hsorted : list.sorted (sort_less blk around.spaceship) h.elems with
  | ok ys =>
    simp only [hsorted] at hreturns hleaves
    exact iff_of_true (agrees_of_list hreturns hleaves (.inr rfl) (iff_of_false nofun id)) ⟨ys, rfl⟩
  | error reply =>
    simp only [hsorted] at hreturns hleaves
    refine iff_of_false (fun hagrees => ?_) nofun
    cases hleaves.reply_eq (hagrees _ hreturns)

end

/-! ### uniq -/

section
variable {blk : Option Callee} {hashes : List KeyedHash} {depth : Nat}

theorem uniq_key_ok (hblk : ∀ block ∈ blk, ∀ n vs, (block n vs).Ordinary) (i : Nat) (v : Value) :
    ∃ key, uniq_key blk i v = .ok key := by
  cases blk with
  | some block =>
    refine ⟨(block i [v]).value, ?_⟩
    rw [uniq_key, if_neg (by rw [(hblk block rfl i [v]).2]; nofun)]
  | none => exact ⟨v, rfl⟩

/-- Where `uniq` comes to an outcome, its loop comes to a list of some elements. -/
theorem uniq_list (hr : lists[r]? = some h) (hblk : ∀ block ∈ blk, ∀ n vs, (block n vs).Ordinary)
    (ho : Returns (fun fuel => uniq hashes depth fuel r blk) lists o) :
    ∃ ys, o = .list ys ∧ ys.Sublist h.elems ∧ ∃ enough, ∀ fuel, enough ≤ fuel → ∀ m, Holds m lists → ∃ m' keys,
      uniq_into hashes depth fuel r blk m = .ok (.ok lists.length, m') ∧
        Holds m' (lists ++ [{ elems := ys, frozen := false }, { elems := keys, frozen := false }]) := by
  obtain ⟨enough, hrun⟩ := ho
  have hinto : ∀ fuel, enough ≤ fuel → ∀ m, Holds m lists → ∃ m' ys keys,
      uniq_into hashes depth fuel r blk m = .ok (.ok lists.length, m') ∧ o = .list ys ∧ ys.Sublist h.elems ∧
        Holds m' (lists ++ [{ elems := ys, frozen := false }, { elems := keys, frozen := false }]) := by
    intro fuel hfuel m hm
    obtain ⟨m', more, reply, hreply, hholds, htold⟩ := hrun fuel hfuel m hm
    obtain ⟨out, m₁, hinto, hrest⟩ := ok_of_bind hreply
    obtain ⟨rfl, ys, keys, hm₁, hsub⟩ := uniq_into_sound (uniq_key_ok hblk) hinto hm hr
    cases hrest
    have htold' : (Outcome.list ys).Told (lists ++ more) (.value (.array lists.length)) := by
      rw [List.append_cancel_left (hholds.unique hm₁)]
      exact ⟨_, { elems := ys, frozen := false }, rfl, by simp, rfl⟩
    exact ⟨m', ys, keys, hinto, htold.unique htold', hsub, hm₁⟩
  obtain ⟨m', ys, keys, -, ho, hsub, -⟩ := hinto enough le_rfl _ (holds_tight lists)
  refine ⟨ys, ho, hsub, enough, fun fuel hfuel m hm => ?_⟩
  obtain ⟨m', ys', keys, hinto, ho', -, hm'⟩ := hinto fuel hfuel m hm
  cases ho.symm.trans ho'
  exact ⟨m', keys, hinto, hm'⟩

theorem uniq_agrees (hr : lists[r]? = some h) (hblk : ∀ block ∈ blk, ∀ n vs, (block n vs).Ordinary) :
    (Twin.uniq blk).Agrees around lists r h.elems := by
  intro o ho
  obtain ⟨ys, rfl, hsub, enough, hrun⟩ := uniq_list hr hblk ho
  have hlens : ∀ {m : Memory} {keys : List Value},
      Holds m (lists ++ [{ elems := ys, frozen := false }, { elems := keys, frozen := false }]) →
        len lists.length m = .ok (ys.length, m) ∧ len r m = .ok (h.elems.length, m) := by
    intro m keys hm
    exact ⟨len_ok (h := { elems := ys, frozen := false }) hm (by simp),
      len_ok hm ((List.getElem?_append_left (lt_of_get hr)).trans hr)⟩
  by_cases hsame : ys.length = h.elems.length
  · refine ⟨.nil, ⟨max enough (ys.length + 1), fun fuel hfuel m hm => ?_⟩, .inl rfl,
      iff_of_true rfl (hsub.eq_of_length hsame)⟩
    obtain ⟨m₁, keys, hinto, hm₁⟩ := hrun fuel (by omega) m hm
    obtain ⟨hcount, hsize⟩ := hlens hm₁
    refine ⟨m₁, [{ elems := ys, frozen := false }, { elems := keys, frozen := false }], ?_, ?_⟩
    · simp only [Twin.bang]
      rw [uniq_bang, bind_ok hinto]
      simp only
      rw [bind_ok hcount, bind_ok hsize, if_pos hsame]
      rfl
    · have hkept : changed lists r ys = lists := by rw [hsub.eq_of_length hsame, changed_same hr]
      rwa [hkept]
  · refine ⟨.array r, ⟨max enough (ys.length + 1), fun fuel hfuel m hm => ?_⟩, .inr rfl,
      iff_of_false nofun fun heq => hsame (congrArg List.length heq)⟩
    obtain ⟨m₁, keys, hinto, hm₁⟩ := hrun fuel (by omega) m hm
    obtain ⟨hcount, hsize⟩ := hlens hm₁
    obtain ⟨m₂, m₃, hempty, hfill, hm₃⟩ := refilled fuel hr hm₁ (by omega)
    refine ⟨m₃, _, ?_, hm₃⟩
    simp only [Twin.bang]
    rw [uniq_bang, bind_ok hinto]
    simp only
    rw [bind_ok hcount, bind_ok hsize, if_neg hsame, bind_ok hempty, bind_ok hfill]
    rfl

end

/-! ### flatten -/

section
variable {args : List Value}

/-- Where `flatten` comes to an outcome, its loop comes to a list. -/
theorem flatten_list {to_ary : Callee} (hr : lists[r]? = some h)
    (ho : Returns (fun fuel => flatten to_ary fuel r args) lists o) :
    ∃ ys, o = .list ys ∧ ∃ enough, ∀ fuel, enough ≤ fuel → ∀ m, Holds m lists → ∃ m₁ m' n,
      val_array_new m = .ok (lists.length, m₁) ∧
        array_flatten_into to_ary lists.length fuel r (flatten_depth args) 0 0 m₁ = .ok (n, m') ∧
          Holds m' (lists ++ [{ elems := ys, frozen := false }]) := by
  obtain ⟨enough, hrun⟩ := ho
  have hinto : ∀ fuel, enough ≤ fuel → ∀ m, Holds m lists → ∃ m₁ m' n ys,
      val_array_new m = .ok (lists.length, m₁) ∧
        array_flatten_into to_ary lists.length fuel r (flatten_depth args) 0 0 m₁ = .ok (n, m') ∧ o = .list ys ∧
          Holds m' (lists ++ [{ elems := ys, frozen := false }]) := by
    intro fuel hfuel m hm
    obtain ⟨m', more, reply, hreply, hholds, htold⟩ := hrun fuel hfuel m hm
    obtain ⟨m₁, hnew, hm₁⟩ := new_ok hm
    simp only at hreply
    rw [flatten, bind_ok hnew] at hreply
    obtain ⟨n, m₂, hinto, hrest⟩ := ok_of_bind hreply
    obtain ⟨ys, hm₂⟩ := array_flatten_into_sound hinto hm₁ (new_held hr []).1
    rw [changed_new, List.nil_append] at hm₂
    cases hrest
    have htold' : (Outcome.list ys).Told (lists ++ more) (.value (.array lists.length)) := by
      rw [List.append_cancel_left (hholds.unique hm₂)]
      exact ⟨_, { elems := ys, frozen := false }, rfl, by simp, rfl⟩
    exact ⟨m₁, m', n, ys, hnew, hinto, htold.unique htold', hm₂⟩
  obtain ⟨-, -, -, ys, -, -, ho, -⟩ := hinto enough le_rfl _ (holds_tight lists)
  refine ⟨ys, ho, enough, fun fuel hfuel m hm => ?_⟩
  obtain ⟨m₁, m', n, ys', hnew, hinto, ho', hm'⟩ := hinto fuel hfuel m hm
  cases ho.symm.trans ho'
  exact ⟨m₁, m', n, hnew, hinto, hm'⟩

/-- What `flatten!` does once its loop is over. -/
theorem flatten_bang_run (hr : lists[r]? = some h) (hf : h.frozen = false)
    (ho : Returns (fun fuel => flatten around.to_ary fuel r args) lists (.list ys)) :
    ∃ enough, ∀ fuel, enough ≤ fuel → ∀ m, Holds m lists →
      match changes (equal_in around.hashes around.depth (lists ++ [{ elems := ys, frozen := false }])) h.elems ys with
      | some c => ∃ m', flatten_bang around.to_ary around.hashes around.depth fuel r args m =
          .ok (.value (if c then .array r else .nil), m') ∧
            Holds m' (changed lists r ys ++ [{ elems := ys, frozen := false }])
      | none => flatten_bang around.to_ary around.hashes around.depth fuel r args m = .error .running := by
  obtain ⟨ys', hys, enough, hrun⟩ := flatten_list hr ho
  cases hys
  refine ⟨max enough (max (h.elems.length + 1) (ys.length + 1)), fun fuel hfuel m hm => ?_⟩
  obtain ⟨m₁, m₂, n, hnew, hinto, hm₂⟩ := hrun fuel (by omega) m hm
  obtain ⟨hmade, hr₂⟩ := new_held hr ys
  obtain ⟨m₃, m₄, hempty, hfill, hm₄⟩ := refilled fuel hr hm₂ (by omega)
  have hstart : flatten_bang around.to_ary around.hashes around.depth fuel r args m =
      (do
        let changed ← if ys.length ≠ h.elems.length then pure true
          else differs_from around.hashes around.depth r lists.length fuel 0
        set_len r 0
        push_while (len lists.length) r lists.length fuel 0
        return .value (if changed then .array r else .nil) : Run Reply) m₂ := by
    rw [flatten_bang, unless_frozen_ok hm hr hf, bind_ok hnew, bind_ok hinto, bind_ok (len_ok hm₂ hmade),
      bind_ok (len_ok hm₂ hr₂)]
  rw [hstart, changes]
  by_cases hsame : ys.length = h.elems.length
  · have hdiffers := differs_from_ok around.hashes around.depth fuel 0 hm₂ hr₂ hmade hsame (by omega)
    rw [List.drop_zero, List.drop_zero] at hdiffers
    rw [if_neg (not_not.mpr hsame), if_neg (not_not.mpr hsame)]
    split
    · rename_i c hchanges
      simp only [hchanges] at hdiffers
      refine ⟨m₄, ?_, hm₄⟩
      rw [bind_ok hdiffers]
      simp only
      rw [bind_ok hempty, bind_ok hfill]
      rfl
    · rename_i hchanges
      simp only [hchanges] at hdiffers
      exact bind_error hdiffers
  · rw [if_pos hsame, if_pos hsame]
    refine ⟨m₄, ?_, hm₄⟩
    rw [bind_ok (pure_ok true)]
    simp only
    rw [bind_ok hempty, bind_ok hfill]
    rfl

/-- The two forms of `flatten` agree where comparing tells what happened. -/
theorem flatten_agrees_iff (hr : lists[r]? = some h) (hf : h.frozen = false) :
    (Twin.flatten args).Agrees around lists r h.elems ↔ (Twin.flatten args).Meets around lists r h.elems := by
  constructor
  · intro hagrees ys ho
    obtain ⟨v, ⟨enough, hleaves⟩, -, hnil⟩ := hagrees _ ho
    obtain ⟨enough', hrun⟩ := flatten_bang_run hr hf ho
    obtain ⟨m', more, hreply, -⟩ := hleaves (max enough enough') (by omega) _ (holds_tight lists)
    have hbang := hrun (max enough enough') (by omega) _ (holds_tight lists)
    split at hbang
    · rename_i c hchanges
      refine ⟨c, hchanges, ?_⟩
      obtain ⟨m₁, hreply', -⟩ := hbang
      cases hreply.symm.trans hreply'
      refine Iff.trans ?_ hnil
      cases c <;> simp
    · cases hreply.symm.trans hbang
  · intro hmeets o ho
    obtain ⟨ys, rfl, -⟩ := flatten_list hr ho
    obtain ⟨c, hchanges, hidle⟩ := hmeets ys ho
    obtain ⟨enough, hrun⟩ := flatten_bang_run hr hf ho
    simp only [hchanges] at hrun
    refine ⟨if c then .array r else .nil, ⟨enough, fun fuel hfuel m hm => ?_⟩, answer_or, Iff.trans ?_ hidle⟩
    · obtain ⟨m', hreply, hm'⟩ := hrun fuel hfuel m hm
      exact ⟨m', _, hreply, hm'⟩
    · cases c <;> simp

end

/-- The two forms agree exactly where `Meets` says. -/
theorem bang_agrees_iff (around : Surroundings) (twin : Twin) (hr : lists[r]? = some h) (hf : h.frozen = false)
    (hordinary : twin.Ordinary) : twin.Agrees around lists r h.elems ↔ twin.Meets around lists r h.elems := by
  cases twin with
  | sort blk => exact sort_agrees_iff hr hf hordinary
  | flatten args => exact flatten_agrees_iff hr hf
  | uniq blk => exact iff_of_true (uniq_agrees hr hordinary) trivial
  | compact =>
    refine iff_of_true (agrees_of_list (compact_returns hr) (compact_bang_leaves hr hf) answer_or ?_) trivial
    rw [filter_answer]
    exact (kept_eq_iff not_nil true h.elems).symm
  | map block =>
    have hgoes := fun i (hi : i < h.elems.length) => (hordinary i [h.elems[i]]).leaves_eq
    exact iff_of_true (agrees_of_list (map_returns hr hgoes) (map_bang_leaves hr hf hgoes) (.inr rfl)
      (iff_of_false nofun id)) trivial
  | select block =>
    exact iff_of_true (filter_agrees hr (fun _ => rfl) (fun _ => rfl) (fun _ => Iff.rfl) hf
      fun i hi => (hordinary i [h.elems[i]]).leaves_eq) trivial
  | reject block =>
    exact iff_of_true (filter_agrees hr (fun _ => rfl) (fun _ => rfl) (fun _ => Iff.rfl) hf
      fun i hi => (hordinary i [h.elems[i]]).leaves_eq) trivial
  | rotate args =>
    exact iff_of_true (agrees_of_list (rotate_returns args hr) (rotate_bang_leaves args hr) (.inr rfl)
      (iff_of_false nofun id)) trivial
  | reverse =>
    exact iff_of_true (agrees_of_list (reverse_returns hr) (reverse_bang_leaves hr hf) (.inr rfl)
      (iff_of_false nofun id)) trivial

end

/-! ### Instances -/

/-- Nothing is defined for other objects. -/
def bare : Surroundings where
  hashes := []
  depth := 1
  spaceship := fun _ _ => { value := .nil, errored := false }
  to_ary := fun _ _ => { value := .exception, errored := true }

/-- An Integer and a String. -/
def mixed : List Held := [{ elems := [.int 3, val_string "x"], frozen := false }]

/-- A block that is true of the first element. -/
def first_only : Callee := fun i _ => { value := .bool (i = 0), errored := false }

theorem bang_agrees_iff_select :
    (Twin.select first_only).Agrees bare mixed 0 mixed[0].elems ↔ (Twin.select first_only).Meets bare mixed 0 mixed[0].elems :=
  bang_agrees_iff bare (.select first_only) rfl rfl fun _ _ => ⟨rfl, rfl⟩

/-- `[3, "x"].sort!` raises nothing. -/
theorem sort_bang_raises_nothing : ¬ (Twin.sort none).Agrees bare mixed 0 mixed[0].elems := by
  intro hagrees
  obtain ⟨ys, hsorted⟩ := (sort_agrees_iff (h := mixed[0]) rfl rfl (fun _ hblk => by cases hblk)).mp hagrees
  cases hsorted

end stoned.arrays
