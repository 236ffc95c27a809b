import Stoned.Combinations
import Stoned.Program.Signed
import Mathlib.Data.List.Perm.Subperm

namespace stoned.arrays

open stoned.program (Buffer Choosing)

/-! The combinations, permutations and products list the tuples of their kind. -/

section kinds
variable {α : Type}

/-- The tuples of a kind, each once and in lexicographic order, by the elements
that stand at their indices. -/
def Lists (result : Option (List (List α))) (row : List Nat → List α) (kind : List Nat → Prop) : Prop :=
  ∃ tuples : List (List Nat), tuples.Pairwise (· < ·) ∧ (∀ t, t ∈ tuples ↔ kind t) ∧ result = some (tuples.map row)

/-- The elements of an array at some indices. -/
def chosen (elems : List α) (t : List Nat) : List α := t.filterMap (elems[·]?)

/-- The elements of several arrays at one index each. -/
def across (arrays : List (List α)) (t : List Nat) : List α := (t.zip arrays).filterMap fun p => p.2[p.1]?

/-- A tuple of `k` indices of an array. -/
structure IsTuple (n : Nat) (k : Int64) (t : List Nat) : Prop where
  length_eq : (t.length : Int) = k.toInt
  lt : ∀ i ∈ t, i < n

def IsCombination (n : Nat) (k : Int64) (t : List Nat) : Prop := IsTuple n k t ∧ t.Pairwise (· < ·)
def IsPermutation (n : Nat) (k : Int64) (t : List Nat) : Prop := IsTuple n k t ∧ t.Nodup
def IsRepeatedCombination (n : Nat) (k : Int64) (t : List Nat) : Prop := IsTuple n k t ∧ t.Pairwise (· ≤ ·)

/-- One index for each array. -/
def IsChoice (arrays : List (List α)) (t : List Nat) : Prop := List.Forall₂ (fun i xs => i < xs.length) t arrays

variable {row : List Nat → List α} {kind : List Nat → Prop}

theorem lists_nothing (hkind : ∀ t, ¬ kind t) : Lists (some []) row kind :=
  ⟨[], List.Pairwise.nil, fun t => iff_of_false List.not_mem_nil (hkind t), rfl⟩

theorem lists_empty (hkind : ∀ t, kind t ↔ t = []) (hrow : row [] = []) : Lists (some [[]]) row kind :=
  ⟨[[]], List.pairwise_singleton .., fun t => by rw [List.mem_singleton, hkind], by rw [List.map_singleton, hrow]⟩

theorem not_lists : ¬ Lists none row kind := by
  rintro ⟨tuples, -, -, h⟩
  cases h

/-- A count as the code sees it. -/
theorem size_of_cases (k : Int64) :
    (k.toInt = size_of k ∧ size_of k < 2 ^ 63) ∨ (k.toInt < 0 ∧ 2 ^ 63 ≤ size_of k) := by
  have hlt : k.toBitVec.toNat < 2 ^ 64 := k.toBitVec.isLt
  have hcond := BitVec.toInt_eq_toNat_cond k.toBitVec
  have hsize : size_of k = k.toBitVec.toNat := rfl
  have hint : k.toInt = k.toBitVec.toInt := rfl
  rw [hint, hcond, hsize]
  split <;> omega

end kinds

/-! ### The kinds -/

section allowed
variable {n k depth start : Nat} {t : List Nat}

/-- Ascending indices take up as much room as there are of them. -/
theorem length_of_ascending (ht : t.Pairwise (· < ·)) (hin : ∀ i ∈ t, start ≤ i ∧ i < n) (hstart : start ≤ n) :
    start + t.length ≤ n := by
  induction t generalizing start with
  | nil => exact hstart
  | cons i t ih =>
    obtain ⟨hle, hlt⟩ := hin i (List.mem_cons_self ..)
    obtain ⟨hall, hrest⟩ := List.pairwise_cons.mp ht
    have := ih hrest (fun j hj => ⟨hall j hj, (hin j (List.mem_cons_of_mem _ hj)).2⟩) hlt
    rw [List.length_cons]
    omega

theorem mem_indices {stop restart : Nat → Nat} {i : Nat} :
    i ∈ (indices stop restart).next (depth, start) ↔ start ≤ i ∧ i < stop depth := by
  have hmem : i ∈ (indices stop restart).next (depth, start) ↔ start ≤ i ∧ i < start + (stop depth - start) := List.mem_range'_1
  rw [hmem]
  omega

theorem combination_allows (hk : k ≤ n) (hdepth : depth + t.length = k) :
    (indices (fun depth => n - (k - depth) + 1) fun i => i + 1).Allows (depth, start) t ↔
      t.Pairwise (· < ·) ∧ ∀ i ∈ t, start ≤ i ∧ i < n := by
  induction t generalizing depth start with
  | nil => exact iff_of_true trivial ⟨List.Pairwise.nil, fun i hi => absurd hi List.not_mem_nil⟩
  | cons i t ih =>
    rw [List.length_cons] at hdepth
    have hrest := @ih (depth + 1) (i + 1) (by omega)
    rw [Choosing.Allows, mem_indices, List.pairwise_cons, List.forall_mem_cons]
    constructor
    · rintro ⟨⟨hle, hlt⟩, hafter⟩
      obtain ⟨hpair, hall⟩ := hrest.mp hafter
      exact ⟨⟨fun j hj => (hall j hj).1, hpair⟩, ⟨hle, by omega⟩, fun j hj => ⟨hle.trans (Nat.le_of_lt (hall j hj).1), (hall j hj).2⟩⟩
    · rintro ⟨⟨hfirst, hpair⟩, ⟨hle, hlt⟩, hall⟩
      have hafter : ∀ j ∈ t, i + 1 ≤ j ∧ j < n := fun j hj => ⟨hfirst j hj, (hall j hj).2⟩
      have hroom := length_of_ascending hpair hafter hlt
      exact ⟨⟨hle, by omega⟩, hrest.mpr ⟨hpair, hafter⟩⟩

theorem repeated_combination_allows :
    (indices (fun _ => n) fun i => i).Allows (depth, start) t ↔ t.Pairwise (· ≤ ·) ∧ ∀ i ∈ t, start ≤ i ∧ i < n := by
  induction t generalizing depth start with
  | nil => exact iff_of_true trivial ⟨List.Pairwise.nil, fun i hi => absurd hi List.not_mem_nil⟩
  | cons i t ih =>
    have hrest := @ih (depth + 1) i
    rw [Choosing.Allows, mem_indices, List.pairwise_cons, List.forall_mem_cons]
    constructor
    · rintro ⟨hi, hafter⟩
      obtain ⟨hpair, hall⟩ := hrest.mp hafter
      exact ⟨⟨fun j hj => (hall j hj).1, hpair⟩, hi, fun j hj => ⟨hi.1.trans (hall j hj).1, (hall j hj).2⟩⟩
    · rintro ⟨⟨hfirst, hpair⟩, hi, hall⟩
      exact ⟨hi, hrest.mpr ⟨hpair, fun j hj => ⟨hfirst j hj, (hall j hj).2⟩⟩⟩

theorem repeated_permutation_allows : (indices (fun _ => n) fun _ => 0).Allows (depth, 0) t ↔ ∀ i ∈ t, i < n := by
  induction t generalizing depth with
  | nil => exact iff_of_true trivial fun i hi => absurd hi List.not_mem_nil
  | cons i t ih =>
    rw [Choosing.Allows, mem_indices, List.forall_mem_cons]
    exact and_congr (and_iff_right (Nat.zero_le i)) (@ih (depth + 1))

theorem product_allows {α : Type} {arrays : List (List α)} (hdepth : depth + t.length = arrays.length) :
    (indices (fun idx => (arrays.getD idx []).length) fun _ => 0).Allows (depth, 0) t ↔ IsChoice (arrays.drop depth) t := by
  induction t generalizing depth with
  | nil =>
    have hnone : arrays.drop depth = [] := List.drop_eq_nil_of_le (le_of_eq hdepth.symm)
    rw [IsChoice, hnone]
    exact iff_of_true trivial .nil
  | cons i t ih =>
    rw [List.length_cons] at hdepth
    have hin : depth < arrays.length := by omega
    have hget : arrays.getD depth [] = arrays[depth] := by rw [List.getD_eq_getElem?_getD, List.getElem?_eq_getElem hin, Option.getD_some]
    rw [Choosing.Allows, mem_indices, IsChoice, List.drop_eq_getElem_cons hin, List.forall₂_cons, hget]
    exact and_congr (and_iff_right (Nat.zero_le i)) (ih (by omega))

theorem permutation_allows {used : List Bool} :
    (free n).Allows used t ↔ t.Nodup ∧ ∀ i ∈ t, i < n ∧ used[i]? = some false := by
  induction t generalizing used with
  | nil => exact iff_of_true trivial ⟨List.nodup_nil, fun i hi => absurd hi List.not_mem_nil⟩
  | cons i t ih =>
    have hset : ∀ j, j ≠ i → (used.set i true)[j]? = used[j]? := fun j hne => List.getElem?_set_ne hne.symm
    have hnext : i ∈ (free n).next used ↔ i < n ∧ used[i]? = some false := by
      rw [free, List.mem_filter, List.mem_range, decide_eq_true_iff]
    have hrest : (free n).Allows ((free n).after used i) t ↔ t.Nodup ∧ ∀ j ∈ t, j < n ∧ (used.set i true)[j]? = some false := ih
    rw [Choosing.Allows, hnext, hrest, List.nodup_cons, List.forall_mem_cons]
    constructor
    · rintro ⟨hi, hnodup, hall⟩
      have hnot : i ∉ t := by
        intro hmem
        have hmarked := (hall i hmem).2
        rw [List.getElem?_set_self (List.getElem?_eq_some_iff.mp hi.2).1] at hmarked
        cases hmarked
      refine ⟨⟨hnot, hnodup⟩, hi, fun j hj => ⟨(hall j hj).1, ?_⟩⟩
      rw [← hset j (fun heq => hnot (heq ▸ hj))]
      exact (hall j hj).2
    · rintro ⟨⟨hnot, hnodup⟩, hi, hall⟩
      refine ⟨hi, hnodup, fun j hj => ⟨(hall j hj).1, ?_⟩⟩
      rw [hset j (fun heq => hnot (heq ▸ hj))]
      exact (hall j hj).2

end allowed

/-! ### What the helpers list -/

section helpers
variable {α : Type} {elems : Nat → List α} {stop restart : Nat → Nat} {cap k : Nat} {row : List Nat → List α}
  {kind : List Nat → Prop}

theorem tuple_helper_lists (hk : k ≤ cap) (hstop : ∀ depth < k, stop depth ≤ (elems depth).length)
    (hrow : ∀ t, t.length = k → entries elems 0 t = row t)
    (hkind : ∀ t, t.length = k ∧ (indices stop restart).Allows (0, 0) t ↔ kind t) :
    Lists ((tuple_helper elems stop restart k k 0 (slots cap, [])).map Prod.snd) row kind := by
  obtain ⟨current', hrun, -⟩ := @tuple_helper_collects α elems stop restart k cap _ [] hstop hk k 0 [] (Nat.zero_add k) filled_slots
  refine ⟨(indices stop restart).tuples k (0, 0), Choosing.tuples_ascending, fun t => ?_, ?_⟩
  · rw [Choosing.mem_tuples, hkind]
  · rw [hrun, Option.map_some, List.nil_append]
    refine congrArg some (List.map_congr_left fun t ht => ?_)
    exact hrow t (Choosing.mem_tuples.mp ht).1

theorem tuple_helper_not_lists (starts : Nat → Nat) (hk : cap < k) (hzero : starts 0 = 0)
    (hstarts : ∀ depth < k, starts depth < stop depth ∧ restart (starts depth) = starts (depth + 1)) :
    ¬ Lists ((tuple_helper elems stop restart k k 0 (slots cap, [])).map Prod.snd) row kind := by
  have hnone := @tuple_helper_outside α elems stop restart k cap (slots cap) [] starts hk hstarts List.length_replicate k 0
    (Nat.zero_le cap) (Nat.zero_add k)
  rw [hzero] at hnone
  rw [hnone]
  exact not_lists

end helpers

section methods
variable {α : Type} {elems : List α} {k : Int64} {n : Nat} {t : List Nat}

theorem tuple_zero (hk : k.toInt = 0) : IsTuple n k t ↔ t = [] := by
  constructor
  · intro h
    have := h.length_eq
    exact List.length_eq_zero_iff.mp (by omega)
  · rintro rfl
    exact ⟨hk.symm, fun i hi => absurd hi List.not_mem_nil⟩

/-- Nothing can be chosen from nothing. -/
theorem not_tuple_empty (hk : k.toInt ≠ 0) : ¬ IsTuple 0 k t := by
  intro h
  cases t with
  | nil => exact hk h.length_eq.symm
  | cons i t => exact Nat.not_lt_zero i (h.lt i (List.mem_cons_self ..))

theorem tuple_iff {m : Nat} (hk : k.toInt = m) : IsTuple n k t ↔ t.length = m ∧ ∀ i ∈ t, i < n := by
  constructor
  · intro h
    have := h.length_eq
    exact ⟨by omega, h.lt⟩
  · intro h
    exact ⟨by omega, h.2⟩

/-- A combination or permutation has no more entries than there are indices. -/
theorem length_of_nodup (h : IsTuple n k t) (ht : t.Nodup) : k.toInt ≤ n := by
  have hle := (ht.subperm fun i hi => List.mem_range.mpr (h.lt i hi)).length_le
  rw [List.length_range] at hle
  have := h.length_eq
  omega

/-- What the methods have in common: the empty tuple, and no tuples where there is
nothing to look for. -/
theorem method_iff {row : List Nat → List α} {kind : List Nat → Prop} {collected : Option (List (List α))} {goes : Prop}
    [Decidable goes] (fits : Prop) (hrow : row [] = []) (htuple : ∀ t, kind t → IsTuple n k t) (hempty : k.toInt = 0 → kind [])
    (hgoes : size_of k ≠ 0 → goes → (Lists collected row kind ↔ fits)) (hnone : size_of k ≠ 0 → ¬ goes → ∀ t, ¬ kind t) :
    Lists (if size_of k = 0 then some [[]] else if goes then collected else some []) row kind ↔
      (size_of k ≠ 0 → goes → fits) := by
  by_cases hzero : size_of k = 0
  · have hk : k.toInt = 0 := by
      have := size_of_cases k
      omega
    rw [if_pos hzero]
    refine iff_of_true (lists_empty (fun t => ⟨fun h => (tuple_zero hk).mp (htuple t h), ?_⟩) hrow) (fun h => absurd hzero h)
    rintro rfl
    exact hempty hk
  · rw [if_neg hzero]
    by_cases hgo : goes
    · rw [if_pos hgo, hgoes hzero hgo]
      exact ⟨fun h _ _ => h, fun h => h hzero hgo⟩
    · rw [if_neg hgo]
      exact iff_of_true (lists_nothing (hnone hzero hgo)) (fun _ h => absurd h hgo)

theorem isTuple_nil (hk : k.toInt = 0) : IsTuple n k [] := (tuple_zero hk).mpr rfl

theorem toInt_of_fits {m : Nat} (hm : m < 2 ^ 63) (hle : size_of k ≤ m) : k.toInt = size_of k := by
  have := size_of_cases k
  omega

theorem combination_iff (hn : elems.length < 2 ^ 63) :
    Lists ((combination elems (some k)).bind Except.toOption) (chosen elems) (IsCombination elems.length k) ↔
      k.toInt ≤ 64 ∨ elems.length < k.toInt := by
  have heq : (combination elems (some k)).bind Except.toOption = if size_of k = 0 then some [[]]
      else if size_of k ≤ elems.length then (combination_helper elems (size_of k) (slots 64, [])).map Prod.snd else some [] := by
    rw [combination]
    split
    · rfl
    · split
      · rw [Option.bind_map]
        exact Option.map_eq_bind.symm
      · rfl
  rw [heq, method_iff (size_of k ≤ 64) (n := elems.length) rfl (fun t ht => ht.1) (fun hk => ⟨isTuple_nil hk, List.Pairwise.nil⟩)]
  · have := size_of_cases k
    omega
  · intro _ hle
    have hk := toInt_of_fits hn hle
    by_cases hfits : size_of k ≤ 64
    · refine iff_of_true (tuple_helper_lists hfits ?_ (fun t _ => entries_same) fun t => ?_) hfits
      · intro depth hdepth
        show elems.length - (size_of k - depth) + 1 ≤ elems.length
        omega
      · rw [IsCombination, tuple_iff hk, and_assoc]
        refine and_congr_right fun hlength => ?_
        rw [combination_allows hle (by omega), and_comm]
        simp
    · refine iff_of_false (tuple_helper_not_lists (fun depth => depth) (Nat.lt_of_not_le hfits) rfl ?_) hfits
      intro depth hdepth
      refine ⟨?_, rfl⟩
      show depth < elems.length - (size_of k - depth) + 1
      omega
  · intro _ hle t ht
    have := length_of_nodup ht.1 (ht.2.imp Nat.ne_of_lt)
    have := size_of_cases k
    have := ht.1.length_eq
    omega

theorem permutation_iff (hn : elems.length < 2 ^ 63) :
    Lists (permutation elems (some k)) (chosen elems) (IsPermutation elems.length k) ↔
      ¬ (1 ≤ k.toInt ∧ k.toInt ≤ elems.length) ∨ elems.length ≤ 64 := by
  change Lists (if size_of k = 0 then some [[]] else if size_of k ≤ elems.length then
    (permutation_helper elems (size_of k) (size_of k) ((List.replicate 64 false, slots 64), [])).map Prod.snd else some []) _ _ ↔ _
  rw [method_iff (elems.length ≤ 64) (n := elems.length) rfl (fun t ht => ht.1) (fun hk => ⟨isTuple_nil hk, List.nodup_nil⟩)]
  · have := size_of_cases k
    omega
  · intro hzero hle
    have hk := toInt_of_fits hn hle
    by_cases hfits : elems.length ≤ 64
    · refine iff_of_true ?_ hfits
      have hmarks : elems.length ≤ (List.replicate 64 false).length := by rw [List.length_replicate]; exact hfits
      obtain ⟨current', hrun, -⟩ := permutation_helper_collects hmarks (hle.trans hfits) [] (Nat.zero_add (size_of k)) filled_slots
      refine ⟨(free elems.length).tuples (size_of k) (List.replicate 64 false), Choosing.tuples_ascending, fun t => ?_, ?_⟩
      · rw [Choosing.mem_tuples, permutation_allows, IsPermutation, tuple_iff hk, and_assoc]
        refine and_congr_right fun _ => ?_
        rw [and_comm]
        refine and_congr_left fun _ => forall₂_congr fun i _ => and_iff_left_of_imp fun hi => ?_
        rw [List.getElem?_replicate, if_pos (by omega)]
      · rw [hrun]
        rfl
    · refine iff_of_false ?_ hfits
      obtain ⟨left, hleft⟩ := Nat.exists_eq_succ_of_ne_zero hzero
      have hmarks : (List.replicate 64 false).length < elems.length := by rw [List.length_replicate]; omega
      have hnone := @permutation_helper_outside α elems (size_of k) _ (slots 64) [] hmarks left
      rw [show left + 1 = size_of k from hleft.symm] at hnone
      rw [hnone]
      exact not_lists
  · intro _ hle t ht
    have := length_of_nodup ht.1 ht.2
    have := size_of_cases k
    have := ht.1.length_eq
    omega

theorem repeated_combination_iff :
    Lists (repeated_combination elems (some k)) (chosen elems) (IsRepeatedCombination elems.length k) ↔
      elems = [] ∨ 0 ≤ k.toInt ∧ k.toInt ≤ 64 := by
  change Lists (if size_of k = 0 then some [[]] else if 0 < elems.length then
    (repeated_combination_helper elems (size_of k) (slots 64, [])).map Prod.snd else some []) _ _ ↔ _
  rw [method_iff (size_of k ≤ 64) (n := elems.length) rfl (fun t ht => ht.1) (fun hk => ⟨isTuple_nil hk, List.Pairwise.nil⟩),
    ← List.length_eq_zero_iff]
  · have := size_of_cases k
    omega
  · intro _ hsome
    by_cases hfits : size_of k ≤ 64
    · have hk := toInt_of_fits (by norm_num) hfits
      refine iff_of_true (tuple_helper_lists hfits (fun _ _ => le_rfl) (fun t _ => entries_same) fun t => ?_) hfits
      rw [IsRepeatedCombination, tuple_iff hk, and_assoc, repeated_combination_allows]
      refine and_congr_right fun _ => ?_
      rw [and_comm]
      simp
    · exact iff_of_false (tuple_helper_not_lists (fun _ => 0) (Nat.lt_of_not_le hfits) rfl fun _ _ => ⟨hsome, rfl⟩) hfits
  · intro hzero hnone t ht
    obtain hlength : elems.length = 0 := by omega
    have := size_of_cases k
    exact not_tuple_empty (by omega) (hlength ▸ ht.1)

theorem repeated_permutation_iff :
    Lists (repeated_permutation elems (some k)) (chosen elems) (IsTuple elems.length k) ↔
      elems = [] ∨ 0 ≤ k.toInt ∧ k.toInt ≤ 64 := by
  change Lists (if size_of k = 0 then some [[]] else if 0 < elems.length then
    (repeated_permutation_helper elems (size_of k) (slots 64, [])).map Prod.snd else some []) _ _ ↔ _
  rw [method_iff (size_of k ≤ 64) (n := elems.length) rfl (fun t ht => ht) isTuple_nil, ← List.length_eq_zero_iff]
  · have := size_of_cases k
    omega
  · intro _ hsome
    by_cases hfits : size_of k ≤ 64
    · have hk := toInt_of_fits (by norm_num) hfits
      refine iff_of_true (tuple_helper_lists hfits (fun _ _ => le_rfl) (fun t _ => entries_same) fun t => ?_) hfits
      rw [tuple_iff hk, repeated_permutation_allows]
    · exact iff_of_false (tuple_helper_not_lists (fun _ => 0) (Nat.lt_of_not_le hfits) rfl fun _ _ => ⟨hsome, rfl⟩) hfits
  · intro hzero hnone t ht
    obtain hlength : elems.length = 0 := by omega
    have := size_of_cases k
    exact not_tuple_empty (by omega) (hlength ▸ ht)

theorem entries_across {arrays : List (List α)} {depth : Nat} (hdepth : depth + t.length = arrays.length) :
    entries (fun idx => arrays.getD idx []) depth t = across (arrays.drop depth) t := by
  induction t generalizing depth with
  | nil => rfl
  | cons i t ih =>
    rw [List.length_cons] at hdepth
    have hin : depth < arrays.length := by omega
    rw [entries, ih (by omega), across, across, List.drop_eq_getElem_cons hin, List.zip_cons_cons, List.filterMap_cons,
      List.getD_eq_getElem?_getD, List.getElem?_eq_getElem hin, Option.getD_some]
    cases arrays[depth][i]? <;> rfl

theorem not_choice {arrays : List (List α)} (h : [] ∈ arrays) : ¬ IsChoice arrays t := by
  intro ht
  induction ht with
  | nil => cases h
  | cons hlt hrest ih =>
    rcases List.mem_cons.mp h with heq | hmem
    · rw [← heq] at hlt
      exact Nat.not_lt_zero _ hlt
    · exact ih hmem

theorem exists_choice {arrays : List (List α)} (h : [] ∉ arrays) : IsChoice arrays (List.replicate arrays.length 0) := by
  induction arrays with
  | nil => exact .nil
  | cons xs arrays ih =>
    have hne : xs ≠ [] := fun heq => h (heq ▸ List.mem_cons_self ..)
    exact .cons (List.length_pos_iff.mpr hne) (ih fun hmem => h (List.mem_cons_of_mem _ hmem))

theorem length_across {arrays : List (List α)} (h : IsChoice arrays t) : (across arrays t).length = arrays.length := by
  induction h with
  | nil => rfl
  | cons hlt hrest ih =>
    rw [across] at ih ⊢
    rw [List.zip_cons_cons, List.filterMap_cons, List.getElem?_eq_getElem hlt, List.length_cons, List.length_cons, ih]

theorem product_iff {args : List (List α)} :
    Lists (product elems args) (across (elems :: args)) (IsChoice (elems :: args)) ↔
      args.length ≤ 64 ∨ [] ∈ elems :: args.take 64 := by
  have hlists : Lists (product elems args) (across (elems :: args.take 64)) (IsChoice (elems :: args.take 64)) := by
    refine tuple_helper_lists ?_ (fun _ _ => le_rfl) (fun t ht => entries_across (by omega)) fun t => ?_
    · rw [List.length_cons, List.length_take]
      omega
    · constructor
      · rintro ⟨hlength, hallows⟩
        exact (product_allows (by omega)).mp hallows
      · intro h
        have hlength := h.length_eq
        exact ⟨hlength, (product_allows (by omega)).mpr h⟩
  constructor
  · rintro ⟨tuples, -, hkind, hresult⟩
    obtain ⟨taken, -, htaken, hresult'⟩ := hlists
    have hrows := Option.some.inj (hresult'.symm.trans hresult)
    by_contra hnot
    obtain ⟨hmany, hfull⟩ := not_or.mp hnot
    -- the first row has an entry for each array that was taken, and for no other
    have hchoice := exists_choice hfull
    have hrow := List.mem_map_of_mem (f := across (elems :: args.take 64)) ((htaken _).mpr hchoice)
    rw [hrows] at hrow
    obtain ⟨t, ht, heq⟩ := List.mem_map.mp hrow
    have hlength := length_across ((hkind t).mp ht)
    rw [heq, length_across hchoice, List.length_cons, List.length_cons, List.length_take] at hlength
    omega
  · rintro (hfew | hempty)
    · rw [List.take_of_length_le hfew] at hlists
      exact hlists
    · obtain ⟨taken, -, htaken, hresult⟩ := hlists
      have hnone : taken = [] := List.eq_nil_iff_forall_not_mem.mpr fun t ht => not_choice hempty ((htaken t).mp ht)
      rw [hresult, hnone]
      refine lists_nothing fun t ht => not_choice ?_ ht
      rcases List.mem_cons.mp hempty with heq | hmem
      · exact heq ▸ List.mem_cons_self ..
      · exact List.mem_cons_of_mem _ (List.mem_of_mem_take hmem)

/-- Each method lists the tuples of its kind, if they fit the buffers. -/
theorem combinatorics_law_iff (hn : elems.length < 2 ^ 63) (k : Int64) (args : List (List α)) :
    (Lists ((combination elems (some k)).bind Except.toOption) (chosen elems) (IsCombination elems.length k) ↔
      k.toInt ≤ 64 ∨ elems.length < k.toInt) ∧
    (Lists (permutation elems (some k)) (chosen elems) (IsPermutation elems.length k) ↔
      ¬ (1 ≤ k.toInt ∧ k.toInt ≤ elems.length) ∨ elems.length ≤ 64) ∧
    (Lists (repeated_combination elems (some k)) (chosen elems) (IsRepeatedCombination elems.length k) ↔
      elems = [] ∨ 0 ≤ k.toInt ∧ k.toInt ≤ 64) ∧
    (Lists (repeated_permutation elems (some k)) (chosen elems) (IsTuple elems.length k) ↔
      elems = [] ∨ 0 ≤ k.toInt ∧ k.toInt ≤ 64) ∧
    (Lists (product elems args) (across (elems :: args)) (IsChoice (elems :: args)) ↔
      args.length ≤ 64 ∨ [] ∈ elems :: args.take 64) :=
  ⟨combination_iff hn, permutation_iff hn, repeated_combination_iff, repeated_permutation_iff, product_iff⟩

/-- The pairs of three elements. -/
theorem combinatorics_of_three :
    combination [5, 6, 7] (some 2) = some (.ok [[5, 6], [5, 7], [6, 7]]) ∧
    (Lists ((combination [5, 6, 7] (some 2)).bind Except.toOption) (chosen [5, 6, 7]) (IsCombination 3 2) ↔
      (2 : Int64).toInt ≤ 64 ∨ 3 < (2 : Int64).toInt) :=
  ⟨by decide, (combinatorics_law_iff (show [5, 6, 7].length < 2 ^ 63 by decide) 2 []).1⟩

/-- One element of 65 cannot be permuted, and none repeated -1 times. -/
theorem permutation_of_many :
    ¬ Lists (permutation (List.replicate 65 'a') (some 1)) (chosen (List.replicate 65 'a')) (IsPermutation 65 1) ∧
    ¬ Lists (repeated_combination ['a'] (some (-1))) (chosen ['a']) (IsRepeatedCombination 1 (-1)) := by
  constructor
  · intro h
    exact absurd ((permutation_iff (show (List.replicate 65 'a').length < 2 ^ 63 by decide)).mp h) (by decide)
  · intro h
    exact absurd (repeated_combination_iff.mp h) (by decide)

end methods

end stoned.arrays
