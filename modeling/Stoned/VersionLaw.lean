import Mathlib.Data.List.Lex
import Mathlib.Data.Sum.Order
import Stoned.VersionText

namespace stoned.rubygems

/-! The order of versions, and the choice of one among several. -/

section sorting

variable {α κ : Type} [LinearOrder κ] {cmp : α → α → Option Int} {key : α → κ}

/-- The comparison orders by a key. -/
def OrdersBy (cmp : α → α → Option Int) (key : α → κ) : Prop :=
  ∀ a b, ∃ c, cmp a b = some c ∧ (c < 0 ↔ key a < key b)

/-- The first element has the greatest key. -/
def HeadMax (key : α → κ) (xs : List α) : Prop := ∀ best ∈ xs.head?, ∀ x ∈ xs, key x ≤ key best

theorem insert_sorted_perm (hcmp : OrdersBy cmp key) (x : α) (before : List α) :
    ∃ sorted, insert_sorted cmp x before = .ok sorted ∧ sorted.Perm (x :: before) := by
  induction before with
  | nil => exact ⟨[x], rfl, .refl _⟩
  | cons prev before ih =>
    obtain ⟨sorted, hsorted, hperm⟩ := ih
    obtain ⟨c, hc, _⟩ := hcmp x prev
    by_cases hneg : c < 0
    · refine ⟨prev :: sorted, by simp [insert_sorted, hc, hneg, hsorted, bind, Except.bind, pure, Except.pure], ?_⟩
      exact (hperm.cons prev).trans (.swap x prev before)
    · exact ⟨x :: prev :: before, by simp [insert_sorted, hc, hneg], .refl _⟩

theorem insert_sorted_mem (hcmp : OrdersBy cmp key) (x : α) (before : List α) :
    ∃ sorted, insert_sorted cmp x before = .ok sorted ∧ ∀ y, y ∈ sorted ↔ y = x ∨ y ∈ before := by
  obtain ⟨sorted, hsorted, hperm⟩ := insert_sorted_perm hcmp x before
  exact ⟨sorted, hsorted, fun y => by rw [hperm.mem_iff, List.mem_cons]⟩

/-- Sorting raises nothing and keeps the elements. -/
theorem sort_perm (hcmp : OrdersBy cmp key) (xs : List α) : ∃ sorted, sort cmp xs = .ok sorted ∧ sorted.Perm xs := by
  have hfold (xs before : List α) : ∃ sorted, xs.foldlM (fun sorted x => insert_sorted cmp x sorted) before = .ok sorted ∧
      sorted.Perm (xs ++ before) := by
    induction xs generalizing before with
    | nil => exact ⟨before, rfl, .refl _⟩
    | cons x xs ih =>
      obtain ⟨next, hnext, hperm⟩ := insert_sorted_perm hcmp x before
      obtain ⟨sorted, hsorted, hrest⟩ := ih next
      refine ⟨sorted, by simp [hnext, bind, Except.bind, hsorted], hrest.trans ?_⟩
      exact (hperm.append_left xs).trans List.perm_middle
  obtain ⟨sorted, hsorted, hperm⟩ := hfold xs []
  refine ⟨sorted.reverse, by simp [sort, hsorted, bind, Except.bind, pure, Except.pure], ?_⟩
  exact (List.reverse_perm sorted).trans (by simpa using hperm)

theorem insert_sorted_ok (hcmp : OrdersBy cmp key) (x : α) {before : List α} (hbefore : HeadMax key before) :
    ∃ sorted, insert_sorted cmp x before = .ok sorted ∧ HeadMax key sorted ∧
      ∀ y, y ∈ sorted ↔ y = x ∨ y ∈ before := by
  obtain ⟨sorted, hsorted, hmem⟩ := insert_sorted_mem hcmp x before
  refine ⟨sorted, hsorted, ?_, hmem⟩
  cases before with
  | nil =>
    obtain rfl : [x] = sorted := Except.ok.inj hsorted
    simp [HeadMax]
  | cons prev before =>
    obtain ⟨c, hc, hless⟩ := hcmp x prev
    have hprev : ∀ y ∈ prev :: before, key y ≤ key prev := hbefore prev rfl
    -- the greatest key stays in front, or the new one is at least as great
    have hhead : ∃ best, sorted.head? = some best ∧ key x ≤ key best ∧ key prev ≤ key best := by
      rw [insert_sorted, hc] at hsorted
      by_cases hneg : c < 0
      · obtain ⟨rest, hrest, _⟩ := insert_sorted_mem hcmp x before
        simp only [hneg, if_true, hrest, bind, Except.bind, pure, Except.pure, Except.ok.injEq] at hsorted
        exact ⟨prev, by rw [← hsorted]; rfl, (hless.mp hneg).le, le_rfl⟩
      · simp only [hneg, if_false, Except.ok.injEq] at hsorted
        exact ⟨x, by rw [← hsorted]; rfl, le_rfl, not_lt.mp fun h => hneg (hless.mpr h)⟩
    obtain ⟨best, hbest, hx, hp⟩ := hhead
    intro best' hbest' y hy
    obtain rfl : best = best' := by simpa [hbest] using hbest'
    rcases (hmem y).mp hy with rfl | hy
    · exact hx
    · exact (hprev y hy).trans hp

/-- The last of the sorted elements is one with the greatest key. -/
theorem sort_last (hcmp : OrdersBy cmp key) {xs : List α} (hxs : xs ≠ []) :
    ∃ sorted best, sort cmp xs = .ok sorted ∧ sorted.getLast? = some best ∧ best ∈ xs ∧
      ∀ x ∈ xs, key x ≤ key best := by
  have hfold (xs before : List α) (hbefore : HeadMax key before) :
      ∃ sorted, xs.foldlM (fun sorted x => insert_sorted cmp x sorted) before = .ok sorted ∧ HeadMax key sorted ∧
        ∀ y, y ∈ sorted ↔ y ∈ before ∨ y ∈ xs := by
    induction xs generalizing before with
    | nil => exact ⟨before, rfl, hbefore, by simp⟩
    | cons x xs ih =>
      obtain ⟨next, hnext, hmax, hmem⟩ := insert_sorted_ok hcmp x hbefore
      obtain ⟨sorted, hsorted, hmax, hsmem⟩ := ih next hmax
      refine ⟨sorted, by simp [hnext, bind, Except.bind, hsorted], hmax, fun y => ?_⟩
      rw [hsmem, hmem, List.mem_cons]
      tauto
  obtain ⟨sorted, hsorted, hmax, hmem⟩ := hfold xs [] (by simp [HeadMax])
  have hsame : ∀ y, y ∈ sorted ↔ y ∈ xs := by simpa using hmem
  obtain ⟨best, rest, rfl⟩ := List.exists_cons_of_ne_nil (l := sorted) (by
    rintro rfl
    obtain ⟨x, xs, rfl⟩ := List.exists_cons_of_ne_nil hxs
    simpa using (hsame x).mpr)
  refine ⟨(best :: rest).reverse, best, ?_, by simp, (hsame best).mp (by simp), ?_⟩
  · simp [sort, hsorted, bind, Except.bind, pure, Except.pure]
  · exact fun x hx => hmax best rfl x ((hsame x).mpr hx)

theorem insert_sorted_map {β : Type} (f : β → α) (x : β) (before : List β) :
    insert_sorted cmp (f x) (before.map f) =
      (insert_sorted (fun a b => cmp (f a) (f b)) x before).map (List.map f) := by
  induction before with
  | nil => rfl
  | cons prev before ih =>
    rw [List.map_cons, insert_sorted, insert_sorted, ih]
    cases cmp (f x) (f prev) with
    | none => rfl
    | some c =>
      by_cases hneg : c < 0
      · simp only [hneg, if_true]
        cases insert_sorted (fun a b => cmp (f a) (f b)) x before <;> rfl
      · simp [hneg, Except.map]

/-- Sorting pairs of a key and an element sorts the elements by their keys. -/
theorem sort_by_eq (block : α → List Segment) (xs : List α) :
    sort_by block xs = sort (fun a b => array_cmp (block a) (block b)) xs := by
  have hfold (before : List α) :
      (xs.map fun x => (block x, x)).foldlM (fun sorted key => insert_sorted (fun a b => array_cmp a.1 b.1) key sorted)
          (before.map fun x => (block x, x)) =
        (xs.foldlM (fun sorted key => insert_sorted (fun a b => array_cmp (block a) (block b)) key sorted) before).map
          (List.map fun x => (block x, x)) := by
    induction xs generalizing before with
    | nil => rfl
    | cons x xs ih =>
      have hinsert := @insert_sorted_map _ (fun a b : List Segment × α => array_cmp a.1 b.1) _
        (fun x => (block x, x)) x before
      rw [List.map_cons, List.foldlM_cons, List.foldlM_cons, hinsert]
      cases insert_sorted (fun a b => array_cmp (block a) (block b)) x before with
      | error e => rfl
      | ok next => exact ih next
  have h := hfold []
  rw [List.map_nil] at h
  rw [sort_by, sort, sort, h]
  cases xs.foldlM (fun sorted key => insert_sorted (fun a b => array_cmp (block a) (block b)) key sorted) [] with
  | error e => rfl
  | ok sorted => simp [Except.map, bind, Except.bind, pure, Except.pure, Function.comp_def]

end sorting

section choice

/-- The numbers that the parts of a version begin with, as doubles. -/
def numbers (v : Text) : List Int := (split_dots v).map fun s => (Double.of_int (strtoll s)).value

theorem array_cmp_numbers (ms ns : List Int64) :
    ∃ c, array_cmp (ms.map .num) (ns.map .num) = some c ∧
      (c < 0 ↔ ms.map (fun n => (Double.of_int n).value) < ns.map fun n => (Double.of_int n).value) := by
  induction ms generalizing ns with
  | nil =>
    cases ns with
    | nil => exact ⟨0, rfl, by simp⟩
    | cons n ns => exact ⟨-1, rfl, by simp⟩
  | cons m ms ih =>
    cases ns with
    | nil => exact ⟨1, rfl, by simp⟩
    | cons n ns =>
      obtain ⟨c, hc, hless⟩ := ih ns
      simp only [List.map_cons, array_cmp, Segment.cmp, List.cons_lt_cons_iff, sign, less_iff]
      rcases lt_trichotomy (Double.of_int m).value (Double.of_int n).value with h | h | h
      · exact ⟨-1, by simp [h], by simp [h]⟩
      · exact ⟨c, by simp [h, hc], by simp [h, hless]⟩
      · exact ⟨1, by simp [h, h.not_gt], by simp [h.not_gt, h.ne']⟩

theorem sort_key_orders : OrdersBy (fun v w => array_cmp (sort_key v) (sort_key w)) numbers := by
  intro v w
  have h := array_cmp_numbers ((split_dots v).map strtoll) ((split_dots w).map strtoll)
  simpa [sort_key, numbers, Function.comp_def] using h

/-- The version that is chosen is one whose numbers are greatest. -/
theorem best_of_ok {matching : List Text} (h : matching ≠ []) :
    ∃ best ∈ matching, best_of matching = .ok (some best) ∧ ∀ v ∈ matching, numbers v ≤ numbers best := by
  obtain ⟨sorted, best, hsorted, hlast, hmem, hmax⟩ := sort_last sort_key_orders h
  refine ⟨best, hmem, ?_, hmax⟩
  rw [best_of, sort_by_eq, hsorted, ← hlast]
  rfl

/-- Of two versions the second is chosen unless its numbers are smaller. -/
theorem best_of_two {v w : Text} (h : ¬numbers w < numbers v) : best_of [v, w] = .ok (some w) := by
  obtain ⟨c, hc, hless⟩ := sort_key_orders w v
  have hneg : ¬c < 0 := fun hneg => h (hless.mp hneg)
  have hc : array_cmp (sort_key w) (sort_key v) = some c := hc
  rw [best_of, sort_by_eq]
  simp [sort, insert_sorted, hc, hneg, bind, Except.bind, pure, Except.pure]

end choice

section order

def Segment.same : Segment → Segment → Bool
  | .num m, .num n => Double.of_int m == Double.of_int n
  | .text s, .text t => s = t
  | _, _ => false

/-- The first segments in which two versions differ. -/
def first_difference : List Segment → List Segment → Option (Segment × Segment)
  | x :: xs, y :: ys => if x.same y then first_difference xs ys else some (x, y)
  | _, _ => none

theorem Segment.same_iff {x y : Segment} : x.same y = true ↔ x.cmp y = some 0 := by
  cases x with
  | num m =>
    cases y with
    | num n =>
      rw [same, cmp, Double.beq_iff, and_iff_right (Double.of_int_nan m), and_iff_right (Double.of_int_nan n)]
      simp only [sign, less_iff, Option.some.injEq]
      split
      · omega
      · split <;> omega
    | text t => simp [same, cmp]
  | text s =>
    cases y with
    | num n => simp [same, cmp]
    | text t =>
      rw [same, cmp, decide_eq_true_eq]
      constructor
      · rintro rfl
        simp [sign, List.lt_irrefl]
      · intro h
        have hnot : ¬s < t ∧ ¬t < s := by
          constructor <;> intro hlt
          · simp [sign, hlt] at h
          · have : ¬s < t := fun hgt => List.lt_irrefl _ (List.lt_trans hlt hgt)
            simp [sign, hlt, this] at h
        exact List.le_antisymm (List.not_lt.mp hnot.2) (List.not_lt.mp hnot.1)

/-- What decides a comparison is the first difference, or the lengths where there is none. -/
theorem array_cmp_first (xs ys : List Segment) :
    match first_difference xs ys with
    | some (x, y) => array_cmp xs ys = x.cmp y
    | none => ∃ c, array_cmp xs ys = some c := by
  induction xs generalizing ys with
  | nil => cases ys <;> exact ⟨_, rfl⟩
  | cons x xs ih =>
    cases ys with
    | nil => exact ⟨_, rfl⟩
    | cons y ys =>
      rw [first_difference, array_cmp]
      by_cases hsame : x.same y = true
      · rw [if_pos hsame, Segment.same_iff.mp hsame]
        exact ih ys
      · rw [if_neg hsame]
        cases hc : x.cmp y with
        | none => simp only [hc]
        | some c =>
          have hne : c ≠ 0 := fun h => hsame (Segment.same_iff.mpr (h ▸ hc))
          simp only [if_pos hne, hc]

theorem Segment.cmp_opposite (x y : Segment) : y.cmp x = (x.cmp y).map (- ·) := by
  cases x with
  | num m =>
    cases y with
    | num n =>
      simp only [cmp, sign, less_iff, Option.map_some]
      split <;> split <;> first | rfl | omega
    | text t => rfl
  | text s =>
    cases y with
    | num n => rfl
    | text t =>
      have hasymm : s < t → ¬t < s := fun hlt hgt => List.lt_irrefl _ (List.lt_trans hlt hgt)
      by_cases hlt : s < t
      · simp [cmp, sign, hlt, hasymm hlt]
      · by_cases hgt : t < s <;> simp [cmp, sign, hlt, hgt]

theorem array_cmp_opposite (xs ys : List Segment) : array_cmp ys xs = (array_cmp xs ys).map (- ·) := by
  induction xs generalizing ys with
  | nil => cases ys <;> rfl
  | cons x xs ih =>
    cases ys with
    | nil => rfl
    | cons y ys =>
      rw [array_cmp, array_cmp, Segment.cmp_opposite x y, ih]
      cases x.cmp y with
      | none => rfl
      | some c => by_cases hc : c = 0 <;> simp [hc]

/-- The place of a segment in a linear order, in which numbers come before texts. -/
def Segment.rank : Segment → ℤ ⊕ₗ List ℕ
  | .num n => toLex (.inl (Double.of_int n).value)
  | .text s => toLex (.inr (s.map UInt8.toNat))

theorem text_lt_iff (s t : Text) : s < t ↔ s.map UInt8.toNat < t.map UInt8.toNat := by
  induction s generalizing t with
  | nil => cases t <;> simp
  | cons c s ih =>
    cases t with
    | nil => simp
    | cons d t =>
      simp only [List.map_cons, List.cons_lt_cons_iff, ih, UInt8.lt_iff_toNat_lt, UInt8.toNat_inj]

theorem Segment.cmp_rank {x y : Segment} {c : Int} (h : x.cmp y = some c) : c < 0 ↔ x.rank < y.rank := by
  cases x with
  | num m =>
    cases y with
    | num n =>
      obtain rfl := Option.some.inj h
      rw [rank, rank, Sum.Lex.inl_lt_inl_iff]
      simp only [sign, less_iff]
      split
      · simp [*]
      · split <;> omega
    | text t => cases h
  | text s =>
    cases y with
    | num n => cases h
    | text t =>
      obtain rfl := Option.some.inj h
      rw [rank, rank, Sum.Lex.inr_lt_inr_iff, ← text_lt_iff]
      simp only [sign, decide_eq_true_eq]
      split
      · simp [*]
      · split <;> simp [*]

theorem Segment.same_rank {x y : Segment} (h : x.cmp y = some 0) : x.rank = y.rank := by
  have hxy := Segment.cmp_rank h
  have hyx := Segment.cmp_rank (x := y) (y := x) (c := 0) (by simp [Segment.cmp_opposite x y, h])
  exact le_antisymm (not_lt.mp fun hlt => by simpa using hyx.mpr hlt) (not_lt.mp fun hlt => by simpa using hxy.mpr hlt)

theorem array_cmp_rank {xs ys : List Segment} {c : Int} (h : array_cmp xs ys = some c) :
    c ≤ 0 ↔ xs.map Segment.rank ≤ ys.map Segment.rank := by
  induction xs generalizing ys with
  | nil =>
    refine iff_of_true ?_ (not_lt.mp (List.not_lt_nil _))
    cases ys <;> simp only [array_cmp, Option.some.injEq] at h <;> omega
  | cons x xs ih =>
    cases ys with
    | nil =>
      obtain rfl : 1 = c := by simpa [array_cmp] using h
      simp
    | cons y ys =>
      rw [array_cmp] at h
      cases hcmp : x.cmp y with
      | none => simp [hcmp] at h
      | some d =>
        simp only [hcmp] at h
        have hrank := Segment.cmp_rank hcmp
        rw [List.map_cons, List.map_cons, ← not_lt (a := y.rank :: _), List.cons_lt_cons_iff]
        by_cases hd : d = 0
        · subst hd
          rw [if_neg (by simp)] at h
          rw [ih h, Segment.same_rank hcmp]
          simp
        · rw [if_pos hd] at h
          obtain rfl := Option.some.inj h
          have hopposite := Segment.cmp_rank (x := y) (y := x) (c := -d) (by simp [Segment.cmp_opposite x y, hcmp])
          have hne : y.rank ≠ x.rank := by
            intro heq
            rw [heq, lt_self_iff_false, iff_false] at hrank hopposite
            rw [Left.neg_neg_iff] at hopposite
            omega
          rw [← hopposite, Left.neg_neg_iff]
          simp only [hne, false_and, or_false, not_lt]

end order

section law

variable {R : Reginold}

namespace Reginold

variable (R) in
/-- The first version is not after the second. -/
def AtMost (v w : Dotted) : Prop := ∃ c, R.version_cmp v.text w.text = some c ∧ c ≤ 0

/-- A version without its last segments that are zero. -/
def trimmed (segs : List Segment) : List Segment := segs.reverse.dropWhile (· = .num 0)

variable (R) in
/-- On a set of versions `<=>` is an order as that of versions should be, and what is
chosen from any of them is a greatest one. -/
structure VersionOrder (S : Set Dotted) : Prop where
  never_nil : ∀ v ∈ S, ∀ w ∈ S, R.version_cmp v.text w.text ≠ none
  opposite : ∀ v ∈ S, ∀ w ∈ S, R.version_cmp w.text v.text = (R.version_cmp v.text w.text).map (- ·)
  total : ∀ v ∈ S, ∀ w ∈ S, R.AtMost v w ∨ R.AtMost w v
  trans : ∀ u ∈ S, ∀ v ∈ S, ∀ w ∈ S, R.AtMost u v → R.AtMost v w → R.AtMost u w
  zeros : ∀ v ∈ S, ∀ w ∈ S, trimmed (R.segments v.text) = trimmed (R.segments w.text) →
    R.version_cmp v.text w.text = some 0
  letters : ∀ v ∈ S, ∀ w ∈ S, (∃ s ∈ v.parts, R.any_letter s = true) → w.text = R.release v.text →
    ∃ c, R.version_cmp v.text w.text = some c ∧ c < 0
  best : ∀ matching : List Dotted, matching ≠ [] → (∀ v ∈ matching, v ∈ S) →
    ∃ best ∈ matching, best_of (matching.map Dotted.text) = .ok (some best.text) ∧ ∀ v ∈ matching, R.AtMost v best

variable (R) in
/-- Two versions that are compared as versions should be: where they first differ, both
segments are numbers, or they are texts in the order of the numbers that the versions'
parts begin with; they do not differ only in zeros at the end, and the second is not
the first without its letters. -/
structure Fits (v w : Dotted) : Prop where
  kinds : ∀ n s, first_difference (R.segments v.text) (R.segments w.text) ≠ some (.num n, .text s) ∧
    first_difference (R.segments v.text) (R.segments w.text) ≠ some (.text s, .num n)
  words : ∀ s t, first_difference (R.segments v.text) (R.segments w.text) = some (.text s, .text t) →
    s < t → numbers v.text < numbers w.text
  zeros : trimmed (R.segments v.text) = trimmed (R.segments w.text) → v.parts.length = w.parts.length
  letters : (∃ s ∈ v.parts, R.any_letter s = true) → w.text ≠ R.release v.text

theorem segments_text (v : Dotted) : R.segments v.text = v.parts.map R.segment := by
  rw [segments_eq, v.split_text]

theorem AtMost.of_ranks {v w : Dotted} (hnil : R.version_cmp v.text w.text ≠ none) :
    R.AtMost v w ↔ (R.segments v.text).map Segment.rank ≤ (R.segments w.text).map Segment.rank := by
  obtain ⟨c, hc⟩ := Option.ne_none_iff_exists'.mp hnil
  rw [← array_cmp_rank hc, AtMost, hc]
  simp

theorem cmp_first {v w : Dotted} {x y : Segment}
    (h : first_difference (R.segments v.text) (R.segments w.text) = some (x, y)) :
    R.version_cmp v.text w.text = x.cmp y := by
  have hfirst := array_cmp_first (R.segments v.text) (R.segments w.text)
  rw [h] at hfirst
  exact hfirst

theorem Fits.not_nil {v w : Dotted} (h : R.Fits v w) : R.version_cmp v.text w.text ≠ none := by
  have hfirst := array_cmp_first (R.segments v.text) (R.segments w.text)
  cases hd : first_difference (R.segments v.text) (R.segments w.text) with
  | none =>
    rw [hd] at hfirst
    obtain ⟨c, hc⟩ := hfirst
    rw [version_cmp, hc]
    nofun
  | some d =>
    rw [cmp_first hd]
    obtain ⟨x, y⟩ := d
    cases x with
    | num n =>
      cases y with
      | num _ => nofun
      | text s => exact absurd hd (h.kinds n s).1
    | text s =>
      cases y with
      | num n => exact absurd hd (h.kinds n s).2
      | text _ => nofun

theorem cmp_length {xs ys : List Segment} (h : array_cmp xs ys = some 0) : xs.length = ys.length := by
  induction xs generalizing ys with
  | nil => cases ys <;> simp_all [array_cmp]
  | cons x xs ih =>
    cases ys with
    | nil => simp [array_cmp] at h
    | cons y ys =>
      rw [array_cmp] at h
      cases hc : x.cmp y with
      | none => simp [hc] at h
      | some c =>
        by_cases hzero : c = 0
        · simp only [hc, hzero, ne_eq, not_true, if_false] at h
          simp [ih h]
        · simp [hc, hzero] at h

/-- Versions of one length that differ only in zeros at the end are the same. -/
theorem eq_of_trimmed {xs ys : List Segment} (h : trimmed xs = trimmed ys) (hlength : xs.length = ys.length) :
    xs = ys := by
  rw [← List.reverse_inj]
  have hzeros (zs : List Segment) : zs.takeWhile (· = .num 0) =
      List.replicate (zs.takeWhile (· = .num 0)).length (.num 0) :=
    List.eq_replicate_of_mem fun z hz => by simpa using List.mem_takeWhile_imp hz
  have hxs := List.takeWhile_append_dropWhile (p := (· = .num 0)) (l := xs.reverse)
  have hys := List.takeWhile_append_dropWhile (p := (· = .num 0)) (l := ys.reverse)
  have hsame : (xs.reverse.takeWhile (· = .num 0)).length = (ys.reverse.takeWhile (· = .num 0)).length := by
    have hx := congrArg List.length hxs
    have hy := congrArg List.length hys
    rw [List.length_append, List.length_reverse] at hx hy
    have := congrArg List.length h
    simp only [trimmed] at this
    omega
  rw [← hxs, ← hys, hzeros xs.reverse, hzeros ys.reverse, hsame]
  exact congrArg _ h

/-- A version whose numbers are not greater is not after the other, where the two fit. -/
theorem at_most_of_numbers (ps qs : List Text)
    (hkinds : ∀ n s, first_difference (ps.map R.segment) (qs.map R.segment) ≠ some (.num n, .text s) ∧
      first_difference (ps.map R.segment) (qs.map R.segment) ≠ some (.text s, .num n))
    (hwords : ∀ s t, first_difference (ps.map R.segment) (qs.map R.segment) = some (.text s, .text t) → t < s →
      (qs.map fun q => (Double.of_int (strtoll q)).value) < ps.map fun p => (Double.of_int (strtoll p)).value)
    (hnumbers : ¬(qs.map fun q => (Double.of_int (strtoll q)).value) <
      ps.map fun p => (Double.of_int (strtoll p)).value) :
    ∃ c, array_cmp (ps.map R.segment) (qs.map R.segment) = some c ∧ c ≤ 0 := by
  induction ps generalizing qs with
  | nil =>
    cases qs with
    | nil => exact ⟨0, rfl, by decide⟩
    | cons q qs => exact ⟨-1, rfl, by decide⟩
  | cons p ps ih =>
    cases qs with
    | nil => simp at hnumbers
    | cons q qs =>
      simp only [List.map_cons, first_difference, array_cmp, List.cons_lt_cons_iff] at *
      by_cases hsame : (R.segment p).same (R.segment q) = true
      · -- segments that are the same begin with the same number
        have hvalue : (Double.of_int (strtoll q)).value = (Double.of_int (strtoll p)).value := by
          rw [segment, segment] at hsame
          split at hsame <;> split at hsame
          · exact (Double.beq_iff.mp hsame).2.2.symm
          · cases hsame
          · cases hsame
          · rw [show p = q by simpa [Segment.same] using hsame]
        simp only [if_pos hsame, hvalue, lt_self_iff_false, true_and, false_or] at hkinds hwords hnumbers
        rw [Segment.same_iff.mp hsame]
        exact ih qs hkinds hwords hnumbers
      · simp only [if_neg hsame] at hkinds hwords
        rw [not_or] at hnumbers
        rw [Segment.same_iff] at hsame
        cases hp : R.segment p with
        | num m =>
          cases hq : R.segment q with
          | num n =>
            have hm : strtoll p = m := by
              rw [segment] at hp
              split at hp
              · exact Segment.num.inj hp
              · cases hp
            have hn : strtoll q = n := by
              rw [segment] at hq
              split at hq
              · exact Segment.num.inj hq
              · cases hq
            rw [hp, hq, Segment.cmp] at hsame
            rw [hm, hn] at hnumbers
            have hlt : (Double.of_int m).less (.of_int n) = true := by
              by_contra hlt
              have hgt : ¬(Double.of_int n).less (.of_int m) = true := by
                rw [less_iff]
                exact hnumbers.1
              simp [sign, hlt, hgt] at hsame
            exact ⟨-1, by simp [Segment.cmp, sign, hlt], by decide⟩
          | text s => exact absurd (by rw [hp, hq]) (hkinds m s).1
        | text s =>
          cases hq : R.segment q with
          | num n => exact absurd (by rw [hp, hq]) (hkinds n s).2
          | text t =>
            have hnot : ¬t < s := fun hlt => not_or.mpr hnumbers (hwords s t (by rw [hp, hq]) hlt)
            rw [hp, hq, Segment.cmp] at hsame
            have hlt : s < t := by
              by_contra hlt
              simp [sign, hlt, hnot] at hsame
            exact ⟨-1, by simp [Segment.cmp, sign, hlt], by decide⟩

theorem first_difference_swap (xs ys : List Segment) :
    first_difference ys xs = (first_difference xs ys).map Prod.swap := by
  induction xs generalizing ys with
  | nil => cases ys <;> rfl
  | cons x xs ih =>
    cases ys with
    | nil => rfl
    | cons y ys =>
      have hsame : y.same x = x.same y := by
        rw [Bool.eq_iff_iff, Segment.same_iff, Segment.same_iff, Segment.cmp_opposite x y]
        simp
      rw [first_difference, first_difference, hsame, ih]
      split <;> rfl

theorem letter_not_digit {c : UInt8} (h : is_letter c = true) : is_digit c = false := by
  rw [← Bool.not_eq_true, digit_bounds]
  simp only [is_letter, Bool.or_eq_true, Bool.and_eq_true, decide_eq_true_eq, UInt8.le_iff_toNat_le,
    UInt8.reduceToNat] at h
  omega

/-- A version is never before what is left of it without its letters. -/
theorem Documented.release_not_after (hR : R.Documented) {parts : List Text} (hparts : ∀ s ∈ parts, Part s)
    (hletter : ∃ s ∈ parts, R.any_letter s = true) {c : Int}
    (h : array_cmp (parts.map R.segment) ((parts.filter fun s => !R.any_letter s).map R.segment) = some c) : 0 < c := by
  induction parts with
  | nil => simp at hletter
  | cons a parts ih =>
    by_cases ha : R.any_letter a = true
    · obtain ⟨l, hl, hla⟩ := (hR.any_letter a).mp ha
      rw [List.filter_cons_of_neg (by simp [ha]), List.map_cons, hR.segment_text hl (letter_not_digit hla)] at h
      cases hrest : parts.filter fun s => !R.any_letter s with
      | nil =>
        rw [hrest] at h
        obtain rfl : 1 = c := by simpa [array_cmp] using h
        decide
      | cons b rest =>
        have hb : b ∈ parts.filter fun s => !R.any_letter s := by simp [hrest]
        obtain ⟨hb, hnone⟩ := List.mem_filter.mp hb
        have hpart := hparts b (by simp [hb])
        have hdigits : R.all_digits b = true := (hR.all_digits b).mpr ⟨hpart.1, fun d hd => by
          have hor := hpart.2 d hd
          have hno : ¬is_letter d = true := fun hletter => by
            simp [(hR.any_letter b).mpr ⟨d, hd, hletter⟩] at hnone
          simpa [hno] using hor⟩
        rw [hrest, List.map_cons, (hR.segment_number hdigits).1] at h
        simp [array_cmp, Segment.cmp] at h
    · rw [List.filter_cons_of_pos (by simp [ha]), List.map_cons, List.map_cons, array_cmp, Segment.cmp_self] at h
      refine ih (fun s hs => hparts s (by simp [hs])) ?_ (by simpa using h)
      obtain ⟨s, hs, hletter⟩ := hletter
      rcases List.mem_cons.mp hs with rfl | hs
      · exact absurd hletter ha
      · exact ⟨s, hs, hletter⟩

theorem Documented.release_cmp (hR : R.Documented) {v w : Dotted} (hletter : ∃ s ∈ v.parts, R.any_letter s = true)
    (hw : w.text = R.release v.text) {c : Int} (h : R.version_cmp v.text w.text = some c) : 0 < c := by
  rw [release, v.split_text] at hw
  have hparts : w.parts = v.parts.filter fun s => !R.any_letter s := by
    rw [← w.split_text, hw]
    refine split_join ?_ fun s hs => ?_
    · intro hnil
      exact w.text_nonempty (by rw [hw, hnil]; rfl)
    · have := v.parted s (List.mem_of_mem_filter hs)
      exact ⟨this.1, this.no_dot⟩
  rw [version_cmp, segments_text, segments_text, hparts] at h
  exact hR.release_not_after v.parted hletter h

/-- Versions compare as versions should exactly where any two of them fit. -/
theorem version_order_iff (hR : R.Documented) (S : Set Dotted) :
    R.VersionOrder S ↔ ∀ v ∈ S, ∀ w ∈ S, R.Fits v w := by
  constructor
  · intro h v hv w hw
    have hnil := h.never_nil v hv w hw
    refine ⟨fun n s => ⟨?_, ?_⟩, ?_, ?_, ?_⟩
    · intro hd
      exact hnil (cmp_first hd)
    · intro hd
      exact hnil (cmp_first hd)
    · intro s t hd hlt
      by_contra hnumbers
      obtain ⟨best, hmem, hbest, hmost⟩ := h.best [w, v] (by simp) (by simp [hv, hw])
      have hchosen : best.text = v.text := by
        rw [List.map_cons, List.map_cons, List.map_nil, best_of_two hnumbers] at hbest
        exact (Option.some.inj (Except.ok.inj hbest)).symm
      obtain ⟨c, hc, hle⟩ := hmost w (by simp)
      have hnot : ¬t < s := fun hgt => List.lt_irrefl _ (List.lt_trans hlt hgt)
      rw [hchosen, h.opposite v hv w hw, cmp_first hd] at hc
      obtain rfl : 1 = c := by simpa [Segment.cmp, sign, hlt] using hc
      omega
    · intro htrimmed
      have := cmp_length (h.zeros v hv w hw htrimmed)
      simpa [segments_text] using this
    · intro hletter hrelease
      obtain ⟨c, hc, hneg⟩ := h.letters v hv w hw hletter hrelease
      have := hR.release_cmp hletter hrelease hc
      omega
  · intro h
    have hnil (v : Dotted) (hv : v ∈ S) (w : Dotted) (hw : w ∈ S) := (h v hv w hw).not_nil
    refine ⟨hnil, fun v _ w _ => array_cmp_opposite _ _, ?_, ?_, ?_, ?_, ?_⟩
    · intro v hv w hw
      rw [AtMost.of_ranks (hnil v hv w hw), AtMost.of_ranks (hnil w hw v hv)]
      exact le_total _ _
    · intro u hu v hv w hw huv hvw
      rw [AtMost.of_ranks (hnil u hu v hv)] at huv
      rw [AtMost.of_ranks (hnil v hv w hw)] at hvw
      rw [AtMost.of_ranks (hnil u hu w hw)]
      exact huv.trans hvw
    · intro v hv w hw htrimmed
      have hlength : (R.segments v.text).length = (R.segments w.text).length := by
        simpa [segments_text] using (h v hv w hw).zeros htrimmed
      rw [version_cmp, eq_of_trimmed htrimmed hlength, array_cmp_self]
    · intro v hv w hw hletter hrelease
      exact absurd hrelease ((h v hv w hw).letters hletter)
    · intro matching hne hS
      obtain ⟨text, htext, hbest, hmax⟩ := @best_of_ok (matching.map Dotted.text) (by simpa using hne)
      obtain ⟨best, hmem, rfl⟩ := List.mem_map.mp htext
      refine ⟨best, hmem, hbest, fun v hv => ?_⟩
      have hfit := h v (hS v hv) best (hS best hmem)
      have hback := h best (hS best hmem) v (hS v hv)
      have hnumbers := hmax v.text (List.mem_map.mpr ⟨v, hv, rfl⟩)
      rw [← not_lt, numbers, numbers, v.split_text, best.split_text] at hnumbers
      rw [AtMost, version_cmp, segments_text, segments_text]
      refine at_most_of_numbers v.parts best.parts ?_ ?_ hnumbers
      · simpa only [segments_text] using hfit.kinds
      · intro s t hd hlt
        have hswap := first_difference_swap (v.parts.map R.segment) (best.parts.map R.segment)
        rw [hd, Option.map_some, Prod.swap_prod_mk] at hswap
        have := hback.words t s (by simpa only [segments_text] using hswap) hlt
        simpa only [numbers, v.split_text, best.split_text] using this

theorem version_order_numbers : matcher.VersionOrder {one_zero, two_zero} := by
  refine (version_order_iff matcher_documented _).mpr ?_
  have hfits (v w : Dotted) (hv : v ∈ [one_zero, two_zero]) (hw : w ∈ [one_zero, two_zero]) : matcher.Fits v w := by
    have hdecided : ∀ v ∈ [one_zero, two_zero].map Dotted.parts, ∀ w ∈ [one_zero, two_zero].map Dotted.parts,
        (first_difference (matcher.segments (join_dots v)) (matcher.segments (join_dots w)) = none ∨
          first_difference (matcher.segments (join_dots v)) (matcher.segments (join_dots w)) =
            some (.num 1, .num 2) ∨
          first_difference (matcher.segments (join_dots v)) (matcher.segments (join_dots w)) =
            some (.num 2, .num 1)) ∧ v.length = w.length ∧ ∀ s ∈ v, matcher.any_letter s = false := by
      decide +kernel
    obtain ⟨hd, hlength, hletters⟩ := hdecided v.parts (List.mem_map_of_mem hv) w.parts (List.mem_map_of_mem hw)
    refine ⟨fun n s => ?_, fun s t h => ?_, fun _ => hlength, ?_⟩
    · rcases hd with hd | hd | hd <;> simp only [Dotted.text, hd] <;> constructor <;> rintro ⟨⟩
    · rcases hd with hd | hd | hd <;> simp [Dotted.text, hd] at h
    · rintro ⟨s, hs, hletter⟩
      simp [hletters s hs] at hletter
  exact fun v hv w hw => hfits v w (by simpa using hv) (by simpa using hw)

/-- The version `1.a`. -/
def one_a : Dotted := ⟨[bytes_of "1", bytes_of "a"], by decide, by decide⟩

/-- Comparing `1.0` with `1.a` gives nil. -/
theorem versions_not_ordered : ¬matcher.VersionOrder Set.univ := fun h =>
  h.never_nil one_zero trivial one_a trivial (by decide +kernel)

end Reginold

end law

end stoned.rubygems
