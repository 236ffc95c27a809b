import Mathlib.Data.List.GetD
import Stoned.DoubleOrder
import Stoned.RequirementLaw

namespace stoned.rubygems

open program

/-! `~>` and the order of versions that are written as numbers. -/

/-- The order that ignores trailing zeros: missing numbers count as 0. -/
def Below (xs ys : List Nat) : Prop := ∃ i, (∀ j < i, xs.getD j 0 = ys.getD j 0) ∧ xs.getD i 0 < ys.getD i 0

/-- The last number is dropped, where there are two, and the one before it increased. -/
def bump (xs : List Nat) : List Nat :=
  let kept := if 2 ≤ xs.length then xs.dropLast else xs
  kept.dropLast ++ [kept.getLastD 0 + 1]

section order
variable {x y : Nat} {xs ys zs : List Nat}

theorem below_cons : Below (x :: xs) (y :: ys) ↔ x < y ∨ x = y ∧ Below xs ys := by
  constructor
  · rintro ⟨i, hsame, hlt⟩
    cases i with
    | zero => exact .inl hlt
    | succ i => exact .inr ⟨hsame 0 (by omega), i, fun j hj => hsame (j + 1) (by omega), hlt⟩
  · rintro (hlt | ⟨rfl, i, hsame, hlt⟩)
    · exact ⟨0, fun j hj => absurd hj (Nat.not_lt_zero j), hlt⟩
    · refine ⟨i + 1, fun j hj => ?_, hlt⟩
      cases j with
      | zero => rfl
      | succ j => exact hsame j (by omega)

theorem not_below_nil : ¬ Below xs [] := by
  rintro ⟨i, -, hlt⟩
  exact Nat.not_lt_zero _ hlt

theorem nil_below_cons : Below [] (y :: ys) ↔ 0 < y ∨ Below [] ys := by
  constructor
  · rintro ⟨i, hsame, hlt⟩
    cases i with
    | zero => exact .inl hlt
    | succ i => exact .inr ⟨i, fun j hj => hsame (j + 1) (by omega), hlt⟩
  · intro h
    rcases Nat.eq_zero_or_pos y with rfl | hpos
    · obtain ⟨i, hsame, hlt⟩ := h.resolve_left (lt_irrefl 0)
      refine ⟨i + 1, fun j hj => ?_, hlt⟩
      cases j with
      | zero => rfl
      | succ j => exact hsame j (by omega)
    · exact ⟨0, fun j hj => absurd hj (Nat.not_lt_zero j), hpos⟩

theorem nil_below_append (h : Below [] ys) : Below [] (xs ++ ys) := by
  induction xs with
  | nil => exact h
  | cons x xs ih => exact nil_below_cons.mpr (.inr ih)

theorem below_append : Below (zs ++ xs) (zs ++ ys) ↔ Below xs ys := by
  induction zs with
  | nil => rfl
  | cons z zs ih =>
    rw [List.cons_append, List.cons_append, below_cons, ih]
    exact ⟨fun h => (h.resolve_left (lt_irrefl z)).2, fun h => .inr ⟨rfl, h⟩⟩

theorem not_below_self : ¬ Below xs xs := by
  rintro ⟨i, -, hlt⟩
  exact lt_irrefl _ hlt

/-- A zero at the end changes nothing. -/
theorem getD_append_zero (i : Nat) : (xs ++ [0]).getD i 0 = xs.getD i 0 := by
  rcases lt_or_ge i xs.length with hlt | hge
  · exact List.getD_append xs [0] 0 i hlt
  · rw [List.getD_append_right xs [0] 0 i hge, List.getD_eq_default _ _ hge]
    cases i - xs.length <;> rfl

theorem append_zero_below : Below (xs ++ [0]) ys ↔ Below xs ys := by
  simp only [Below, getD_append_zero]

end order

section bump
variable {a b : Nat} {before : List Nat}

theorem bump_one : bump [a] = [a + 1] := rfl

theorem bump_append : bump (before ++ [a, b]) = before ++ [a + 1] := by
  have hlength : 2 ≤ (before ++ [a, b]).length := by
    rw [List.length_append]
    exact Nat.le_add_left 2 _
  have hdrop : (before ++ [a, b]).dropLast = before ++ [a] := by
    rw [show [a, b] = [a] ++ [b] from rfl, ← List.append_assoc, List.dropLast_concat]
  have hlast : (before ++ [a]).getLastD 0 = a := by
    rw [List.getLastD_eq_getLast?, List.getLast?_concat]
    rfl
  simp only [bump, if_pos hlength, hdrop, List.dropLast_concat, hlast]

end bump

/-- The double that a number of a version is compared as. -/
def converted (n : Nat) : Double := .of_int (saturated n)

/-- A part of digits as a segment. -/
def numeral (n : Nat) : Segment := .num (saturated n)

section numeral
variable {a b : Nat} {xs ys : List Segment}

theorem saturated_mono (h : a ≤ b) : (saturated a).toInt ≤ (saturated b).toInt := by
  have hmax : Int64.maxValue.toInt = 2 ^ 63 - 1 := by decide
  have htoInt : ∀ n : Nat, (saturated n).toInt = min (n : Int) (2 ^ 63 - 1) := by
    intro n
    unfold saturated
    rw [if_neg (by omega)]
    split
    · rw [hmax]
      omega
    · rw [Int64.toInt_ofInt_of_le (by omega) (by omega)]
      omega
  rw [htoInt, htoInt]
  omega

theorem converted_less : (converted a).less (converted b) = true ↔ a < b ∧ converted a ≠ converted b := by
  rw [converted, converted, Double.of_int_less_iff, Int64.lt_iff_toInt_lt]
  constructor
  · rintro ⟨hlt, hne⟩
    refine ⟨?_, hne⟩
    by_contra hle
    have := saturated_mono (Nat.le_of_not_lt hle)
    omega
  · rintro ⟨hlt, hne⟩
    refine ⟨lt_of_le_of_ne (saturated_mono hlt.le) fun heq => hne ?_, hne⟩
    rw [Int64.toInt_inj.mp heq]

/-- What lies between two numbers with one double has it too. -/
theorem converted_between {c : Nat} (h : a ≤ b) (h' : b ≤ c) (hsame : converted a = converted c) : converted a = converted b := by
  by_contra hne
  have hlow : (converted a).less (converted b) = true :=
    converted_less.mpr ⟨lt_of_le_of_ne h fun heq => hne (by rw [heq]), hne⟩
  have hhigh : (converted b).less (converted c) = true :=
    converted_less.mpr ⟨lt_of_le_of_ne h' fun heq => hne (by rw [hsame, heq]), fun heq => hne (by rw [hsame, heq])⟩
  rw [hsame] at hlow
  exact lt_asymm (less_iff.mp hlow) (less_iff.mp hhigh)

theorem array_cmp_numeral : array_cmp (numeral a :: xs) (numeral b :: ys) =
    if converted a = converted b then array_cmp xs ys else if a < b then some (-1) else some 1 := by
  have hcmp : (numeral a).cmp (numeral b) = some (sign ((converted a).less (converted b)) ((converted b).less (converted a))) := rfl
  rw [array_cmp, hcmp]
  by_cases hsame : converted a = converted b
  · have hless : (converted a).less (converted b) = false := by
      rw [← Bool.not_eq_true, converted_less]
      exact fun h => h.2 hsame
    have hgreater : (converted b).less (converted a) = false := by
      rw [← Bool.not_eq_true, converted_less]
      exact fun h => h.2 hsame.symm
    rw [hless, hgreater, if_pos hsame]
    rfl
  · rw [if_neg hsame]
    by_cases hlt : a < b
    · rw [converted_less.mpr ⟨hlt, hsame⟩, if_pos hlt]
      rfl
    · have hne : a ≠ b := fun heq => hsame (by rw [heq])
      have hless : (converted a).less (converted b) = false := by
        rw [← Bool.not_eq_true, converted_less]
        exact fun h => hlt h.1
      rw [hless, converted_less.mpr ⟨by omega, Ne.symm hsame⟩, if_neg hlt]
      rfl

/-- A comparison sees no more of a number than its double. -/
theorem numeral_cmp (h : converted a = converted b) (z : Segment) : (numeral a).cmp z = (numeral b).cmp z := by
  cases z with
  | num n =>
    have hcmp : ∀ m : Nat, (numeral m).cmp (.num n) = some (sign ((converted m).less (.of_int n)) ((Double.of_int n).less (converted m))) :=
      fun _ => rfl
    rw [hcmp, hcmp, h]
  | text s =>
    have hcmp : ∀ m : Nat, (numeral m).cmp (.text s) = none := fun _ => rfl
    rw [hcmp, hcmp]

theorem same_cmp {ws ws' : List Nat} (h : ws.map converted = ws'.map converted) (zs : List Segment) :
    array_cmp (ws.map numeral) zs = array_cmp (ws'.map numeral) zs := by
  induction ws generalizing ws' zs with
  | nil =>
    obtain rfl := List.map_eq_nil_iff.mp h.symm
    rfl
  | cons w ws ih =>
    obtain ⟨w', ws', rfl, hhead, htail⟩ := List.map_eq_cons_iff.mp h.symm
    cases zs with
    | nil => rw [List.map_cons, List.map_cons, array_cmp, array_cmp]
    | cons z zs =>
      rw [List.map_cons, List.map_cons, array_cmp, array_cmp, numeral_cmp hhead.symm, ih htail.symm]

end numeral

/-- The doubles tell the number from every other. -/
def Alone (n : Nat) : Prop := ∀ m, converted m = converted n → m = n

/-- The doubles tell the number from every smaller one. -/
def Least (n : Nat) : Prop := ∀ m, converted m = converted n → n ≤ m

/-- Only the neighbours matter. -/
theorem alone_of_neighbours {n : Nat} (hnext : converted (n + 1) ≠ converted n)
    (hprevious : ∀ m, n = m + 1 → converted m ≠ converted n) : Alone n := by
  intro m hm
  rcases lt_trichotomy m n with hlt | heq | hlt
  · obtain ⟨k, rfl⟩ := Nat.exists_eq_succ_of_ne_zero (Nat.ne_of_gt (Nat.zero_lt_of_lt hlt))
    have hsame := converted_between (Nat.le_of_lt_succ hlt) (Nat.le_succ k) hm
    exact absurd (by rw [← hsame, hm]) (hprevious k rfl)
  · exact heq
  · have hsame := converted_between (Nat.le_succ n) hlt hm.symm
    exact absurd hsame.symm hnext

theorem Alone.least {n : Nat} (h : Alone n) : Least n := fun m hm => (h m hm).ge

/-- What `~>` asks of the numbers of a version, as the doubles see them: at
least the lower bound, and less than the upper bound where there is one. -/
structure Meets (ws vs : List Nat) : Prop where
  lower : ∃ c, array_cmp (ws.map numeral) (vs.map numeral) = some c ∧ 0 ≤ c
  upper : ∀ (before : List Nat) (a b : Nat), vs = before ++ [a, b] →
    ∃ d, array_cmp (ws.map numeral) (before.map numeral ++ [number_segment (saturated a + 1)]) = some d ∧ d < 0

section meets
variable {ws ws' vs : List Nat}

theorem Meets.same (h : ws.map converted = ws'.map converted) (hmeets : Meets ws vs) : Meets ws' vs := by
  refine ⟨?_, fun before a b heq => ?_⟩
  · rw [← same_cmp h]
    exact hmeets.lower
  · rw [← same_cmp h]
    exact hmeets.upper before a b heq

theorem number_segment_saturated (n : Nat) : number_segment (saturated n) = numeral n :=
  if_pos (saturated_nonneg (Int.natCast_nonneg n))

/-- A number that no other is taken for is small enough to be increased. -/
theorem Alone.lt {n : Nat} (h : Alone n) : n < 2 ^ 63 - 1 := by
  by_contra hbig
  have hmax : converted (2 ^ 63) = converted (2 ^ 63 - 1) := by decide +kernel
  have hsaturated : ∀ m : Nat, 2 ^ 63 ≤ m → converted m = converted (2 ^ 63) := by
    intro m hm
    rw [converted, converted, saturated, saturated, if_neg (by omega), if_pos (by omega), if_neg (by omega), if_pos (by omega)]
  rcases Nat.eq_or_lt_of_le (Nat.le_of_not_lt hbig) with heq | hlt
  · have := h (2 ^ 63) (by rw [hmax, heq])
    omega
  · have := h (2 ^ 63 - 1) (by rw [hsaturated n (by omega), hmax])
    omega

theorem Alone.increased {n : Nat} (h : Alone n) : number_segment (saturated n + 1) = numeral (n + 1) := by
  have hlt := h.lt
  have hsum : saturated n + 1 = saturated ((n + 1 : Nat) : Int) := by
    rw [saturated_of_lt (by omega) (by omega), saturated_of_lt (by omega) (by omega), ← Int64.toInt_inj, Int64.toInt_add,
      Int64.toInt_ofInt_of_le (by omega) (by omega), Int64.toInt_ofInt_of_le (by omega) (by omega),
      show (1 : Int64).toInt = 1 by decide, Int.bmod_eq_of_le (by omega) (by omega)]
    rfl
  rw [hsum, number_segment_saturated]

theorem nil_below {x : Nat} (h : x ≠ 0) (before : List Nat) : Below [] (before ++ [x]) :=
  nil_below_append (nil_below_cons.mpr (.inl (Nat.pos_of_ne_zero h)))

/-- The end of one list is never below the end of the other. -/
theorem array_cmp_end (ws : List Nat) : ∃ c, array_cmp (ws.map numeral) [] = some c ∧ 0 ≤ c := by
  cases ws with
  | nil => exact ⟨0, rfl, by decide⟩
  | cons w ws => exact ⟨1, by rw [List.map_cons, array_cmp], by decide⟩

theorem lower_iff {before : List Nat} {b : Nat} (hbefore : ∀ x ∈ before, Alone x) (hb : Least b) (hne : b ≠ 0) :
    (∃ c, array_cmp (ws.map numeral) ((before ++ [b]).map numeral) = some c ∧ 0 ≤ c) ↔ ¬ Below ws (before ++ [b]) := by
  induction before generalizing ws with
  | nil =>
    cases ws with
    | nil =>
      refine iff_of_false ?_ (not_not_intro (nil_below hne []))
      rintro ⟨c, hc, hnonneg⟩
      obtain rfl : -1 = c := Option.some_inj.mp hc
      exact absurd hnonneg (by decide)
    | cons w ws =>
      rw [List.nil_append, List.map_cons, List.map_singleton, array_cmp_numeral, below_cons]
      by_cases hsame : converted w = converted b
      · rw [if_pos hsame]
        refine iff_of_true (array_cmp_end ws) ?_
        rintro (hlt | ⟨-, hbelow⟩)
        · exact absurd (hb w hsame) (Nat.not_le_of_lt hlt)
        · exact not_below_nil hbelow
      · rw [if_neg hsame]
        by_cases hlt : w < b
        · rw [if_pos hlt]
          exact iff_of_false (by simp) (not_not_intro (.inl hlt))
        · rw [if_neg hlt]
          refine iff_of_true (by simp) ?_
          rintro (h | ⟨rfl, -⟩)
          · exact hlt h
          · exact hsame rfl
  | cons x before ih =>
    have hx := hbefore x List.mem_cons_self
    have hrest : ∀ y ∈ before, Alone y := fun y hy => hbefore y (List.mem_cons_of_mem x hy)
    cases ws with
    | nil =>
      refine iff_of_false ?_ (not_not_intro (nil_below hne (x :: before)))
      rintro ⟨c, hc, hnonneg⟩
      obtain rfl : -1 = c := Option.some_inj.mp hc
      exact absurd hnonneg (by decide)
    | cons w ws =>
      rw [List.cons_append, List.map_cons, List.map_cons, array_cmp_numeral, below_cons]
      by_cases hsame : converted w = converted x
      · obtain rfl := hx w hsame
        rw [if_pos rfl, ih hrest]
        simp
      · rw [if_neg hsame]
        by_cases hlt : w < x
        · rw [if_pos hlt]
          exact iff_of_false (by simp) (not_not_intro (.inl hlt))
        · rw [if_neg hlt]
          refine iff_of_true (by simp) ?_
          rintro (h | ⟨rfl, -⟩)
          · exact hlt h
          · exact hsame rfl

theorem exists_array_cmp (ws us : List Nat) : ∃ c, array_cmp (ws.map numeral) (us.map numeral) = some c := by
  induction ws generalizing us with
  | nil =>
    cases us with
    | nil => exact ⟨0, rfl⟩
    | cons u us => exact ⟨-1, by rw [List.map_nil, List.map_cons, array_cmp]⟩
  | cons w ws ih =>
    cases us with
    | nil => exact ⟨1, by rw [List.map_nil, List.map_cons, array_cmp]⟩
    | cons u us =>
      rw [List.map_cons, List.map_cons, array_cmp_numeral]
      split
      · exact ih us
      · split
        · exact ⟨-1, rfl⟩
        · exact ⟨1, rfl⟩

theorem upper_iff {before : List Nat} {b : Nat} (hbefore : ∀ x ∈ before, Alone x) (hb : Least b) (hne : b ≠ 0) :
    (∃ d, array_cmp (ws.map numeral) ((before ++ [b]).map numeral) = some d ∧ d < 0) ↔ Below ws (before ++ [b]) := by
  have hlower := @lower_iff ws before b hbefore hb hne
  obtain ⟨c, hc⟩ := exists_array_cmp ws (before ++ [b])
  rw [← not_iff_not, ← hlower, hc]
  simp only [Option.some.injEq, exists_eq_left', not_lt]

/-- What is taken for the next number is not smaller than it. -/
theorem Alone.least_next {a : Nat} (ha : Alone a) : Least (a + 1) := by
  intro m hm
  by_contra hlt
  have hsame := converted_between (show m ≤ a by omega) (Nat.le_succ a) hm
  exact absurd (ha (a + 1) (by rw [← hm, hsame])) (Nat.succ_ne_self a)

/-- The versions that `~>` should accept. -/
def Between (ws vs : List Nat) : Prop := ¬ Below ws vs ∧ Below ws (bump vs)

theorem meets_iff {before : List Nat} {a b : Nat} (hbefore : ∀ x ∈ before, Alone x) (ha : Alone a) (hb : Least b)
    (hne : b ≠ 0) : Meets ws (before ++ [a, b]) ↔ Between ws (before ++ [a, b]) := by
  have hfront : ∀ x ∈ before ++ [a], Alone x := by
    intro x hx
    rcases List.mem_append.mp hx with hx | hx
    · exact hbefore x hx
    · rwa [List.mem_singleton.mp hx]
  have hlower := @lower_iff ws (before ++ [a]) b hfront hb hne
  have hupper := @upper_iff ws before (a + 1) hbefore ha.least_next (Nat.succ_ne_zero a)
  rw [List.append_assoc] at hlower
  rw [Between, bump_append, ← hupper]
  constructor
  · intro h
    refine ⟨hlower.mp h.lower, ?_⟩
    rw [List.map_append, List.map_singleton, ← ha.increased]
    exact h.upper before a b rfl
  · rintro ⟨hnot, hbelow⟩
    refine ⟨hlower.mpr hnot, fun before' a' b' heq => ?_⟩
    obtain ⟨rfl, hlast⟩ := List.append_inj' heq rfl
    obtain ⟨rfl, -⟩ := List.cons.inj hlast
    rw [ha.increased]
    rwa [List.map_append, List.map_singleton] at hbelow

theorem between_self (before : List Nat) (a b : Nat) : Between (before ++ [a, b]) (before ++ [a, b]) := by
  refine ⟨not_below_self, ?_⟩
  rw [bump_append, below_append, below_cons]
  exact .inl (Nat.lt_succ_self a)

/-- With a single number there is no upper bound. -/
theorem not_between_one (a : Nat) : Meets [a + 1] [a] ∧ ¬ Between [a + 1] [a] := by
  refine ⟨⟨?_, fun before b c heq => ?_⟩, fun h => not_below_self h.2⟩
  · rw [List.map_singleton, List.map_singleton, array_cmp_numeral, if_neg (show ¬ a + 1 < a by omega)]
    split
    · exact ⟨0, rfl, by decide⟩
    · exact ⟨1, rfl, by decide⟩
  · have := congrArg List.length heq
    rw [List.length_append, List.length_singleton, List.length_cons, List.length_singleton] at this
    omega

section necessary
variable {before : List Nat} {a b : Nat} (hlaw : ∀ ws, ws ≠ [] → (Meets ws (before ++ [a, b]) ↔ Between ws (before ++ [a, b])))
include hlaw

/-- What the doubles do not tell from the version itself has to be accepted like it. -/
theorem between_same (h : ws.map converted = (before ++ [a, b]).map converted) (hne : ws ≠ []) :
    Between ws (before ++ [a, b]) :=
  (hlaw ws hne).mp (((hlaw _ (by simp)).mpr (between_self before a b)).same h.symm)

theorem last_least : Least b := by
  intro t ht
  have hsame : (before ++ [a, t]).map converted = (before ++ [a, b]).map converted := by
    simp only [List.map_append, List.map_cons, ht]
  by_contra hlt
  refine (between_same hlaw hsame (by simp)).1 ?_
  rw [below_append, below_cons, below_cons]
  exact .inr ⟨rfl, .inl (Nat.lt_of_not_le hlt)⟩

theorem increased_alone : Alone a := by
  intro t ht
  have hsame : (before ++ [t, b]).map converted = (before ++ [a, b]).map converted := by
    simp only [List.map_append, List.map_cons, ht]
  obtain ⟨hnot, hbelow⟩ := between_same hlaw hsame (by simp)
  rw [bump_append, below_append, below_cons] at hbelow
  rw [below_append, below_cons] at hnot
  rcases hbelow with hlt | ⟨-, hnil⟩
  · have hge : ¬ t < a := fun h => hnot (.inl h)
    omega
  · exact absurd hnil not_below_nil

theorem before_alone : ∀ x ∈ before, Alone x := by
  intro x hx t ht
  obtain ⟨p, q, rfl⟩ := List.append_of_mem hx
  have hsame : ((p ++ t :: q) ++ [a, b]).map converted = ((p ++ x :: q) ++ [a, b]).map converted := by
    simp only [List.map_append, List.map_cons, ht]
  obtain ⟨hnot, hbelow⟩ := between_same hlaw hsame (by simp)
  rw [bump_append, List.append_assoc, List.append_assoc, below_append, List.cons_append, List.cons_append, below_cons] at hbelow
  rw [List.append_assoc, List.append_assoc, below_append, List.cons_append, List.cons_append, below_cons] at hnot
  rcases hbelow with hlt | ⟨heq, -⟩
  · exact absurd (.inl hlt) hnot
  · exact heq

theorem last_ne_zero : b ≠ 0 := by
  rintro rfl
  have hbetween : Between (before ++ [a]) (before ++ [a, 0]) := by
    constructor
    · rw [below_append, below_cons, nil_below_cons]
      have := @not_below_nil []
      simp [this]
    · rw [bump_append, below_append, below_cons]
      exact .inl (Nat.lt_succ_self a)
  obtain ⟨c, hc, hnonneg⟩ := ((hlaw (before ++ [a]) (by simp)).mpr hbetween).lower
  have hsplit : (before ++ [a, 0]).map numeral = (before ++ [a]).map numeral ++ [0].map numeral := by
    rw [← List.map_append, List.append_assoc]
    rfl
  rw [hsplit] at hc
  have hend := array_cmp_append ((before ++ [a]).map numeral) [] ([0].map numeral)
  rw [List.append_nil, hc] at hend
  obtain rfl : c = -1 := Option.some_inj.mp hend
  exact absurd hnonneg (by decide)

end necessary

/-- `~>` accepts what it should exactly for two numbers and more, the last not 0,
which the doubles tell from the others. -/
theorem meets_iff_between (hne : vs ≠ []) : (∀ ws, ws ≠ [] → (Meets ws vs ↔ Between ws vs)) ↔
    ∃ before a b, vs = before ++ [a, b] ∧ (∀ x ∈ before, Alone x) ∧ Alone a ∧ Least b ∧ b ≠ 0 := by
  constructor
  · intro hlaw
    obtain ⟨front, b, rfl⟩ := List.eq_nil_or_concat vs |>.resolve_left hne
    rw [List.concat_eq_append] at hlaw ⊢
    rcases List.eq_nil_or_concat front with rfl | ⟨before, a, rfl⟩
    · obtain ⟨hmeets, hnot⟩ := not_between_one b
      exact absurd ((hlaw [b + 1] (by simp)).mp hmeets) hnot
    · rw [List.concat_eq_append, List.append_assoc] at hlaw ⊢
      exact ⟨before, a, b, rfl, before_alone hlaw, increased_alone hlaw, last_least hlaw, last_ne_zero hlaw⟩
  · rintro ⟨before, a, b, rfl, hbefore, ha, hb, hzero⟩ ws -
    exact meets_iff hbefore ha hb hzero

end meets

/-- A version written as numbers between dots. -/
def Dotted.Numeric (v : Dotted) : Prop := ∀ s ∈ v.parts, ∀ c ∈ s, is_digit c = true

def Dotted.numbers (v : Dotted) : List Nat := v.parts.map digits_value

section texts
variable {R : Reginold} {v w : Dotted}

theorem strtoll_digits {s : Text} (hne : s ≠ []) (h : ∀ c ∈ s, is_digit c = true) : strtoll s = saturated (digits_value s) := by
  obtain ⟨c, rest, rfl⟩ := List.exists_cons_of_ne_nil hne
  rw [strtoll_unsigned (digit_bounds.mp (h c List.mem_cons_self)).1, List.takeWhile_eq_self_iff.mpr h]

theorem Dotted.Numeric.strtoll (hv : v.Numeric) : v.parts.map rubygems.strtoll = v.numbers.map fun n : Nat => saturated n := by
  rw [Dotted.numbers, List.map_map]
  exact List.map_congr_left fun s hs => strtoll_digits (v.parted s hs).1 (hv s hs)

theorem Dotted.Numeric.segments (hR : R.Documented) (hv : v.Numeric) : R.segments v.text = v.numbers.map numeral := by
  rw [Reginold.segments_eq, v.split_text, Dotted.numbers, List.map_map]
  refine List.map_congr_left fun s hs => ?_
  have hdigits := (hR.all_digits s).mpr ⟨(v.parted s hs).1, hv s hs⟩
  rw [(hR.segment_number hdigits).1, strtoll_digits (v.parted s hs).1 (hv s hs)]
  rfl

theorem Dotted.numbers_ne (v : Dotted) : v.numbers ≠ [] := fun h => v.nonempty (List.map_eq_nil_iff.mp h)

/-- The upper bound as it is read back. -/
theorem Dotted.Numeric.upper (hR : R.Documented) (hv : v.Numeric) {before : List Nat} {a b : Nat} (h : v.numbers = before ++ [a, b]) :
    R.segments (Reginold.upper ((split_dots v.text).map rubygems.strtoll)) =
      before.map numeral ++ [number_segment (saturated a + 1)] := by
  have hnumbers : (before ++ [a, b]).map (fun n : Nat => saturated n) = (before.map (fun n : Nat => saturated n) ++ [saturated a]) ++ [saturated b] := by
    simp
  rw [v.split_text, hv.strtoll, h, Reginold.upper, hnumbers, List.dropLast_concat, add_to_last_concat, hR.segments_numbers (by simp),
    List.map_append, List.map_map, List.map_singleton]
  congr 1
  exact List.map_congr_left fun n _ => number_segment_saturated n

theorem satisfied_iff_meets (hR : R.Documented) (hv : v.Numeric) (hw : w.Numeric) :
    R.Satisfied (requirement_of [(.pessimistic, v)]) w.text ↔ Meets w.numbers v.numbers := by
  have hconstraint : R.constraint_satisfied w.text (Operator.pessimistic.text, v.text) = R.pessimistic w.text v.text := by
    simp [Reginold.constraint_satisfied, Operator.text_inj]
  have hlength : (split_dots v.text).length = v.numbers.length := by rw [v.split_text, Dotted.numbers, List.length_map]
  rw [requirement_of, List.map_singleton, satisfied_singleton, hconstraint, pessimistic_iff, Reginold.version_cmp, Reginold.version_cmp,
    hv.segments hR, hw.segments hR, hlength]
  constructor
  · rintro ⟨hlower, hupper⟩
    refine ⟨hlower, fun before a b heq => ?_⟩
    rw [← hv.upper hR heq]
    exact hupper (by rw [heq]; simp)
  · intro h
    refine ⟨h.lower, fun htwo => ?_⟩
    obtain ⟨front, b, hfront⟩ := List.eq_nil_or_concat v.numbers |>.resolve_left v.numbers_ne
    rw [List.concat_eq_append] at hfront
    rcases List.eq_nil_or_concat front with rfl | ⟨before, a, rfl⟩
    · rw [hfront] at htwo
      exact absurd htwo (by simp)
    · rw [List.concat_eq_append, List.append_assoc] at hfront
      rw [hv.upper hR hfront]
      exact h.upper before a b hfront

theorem decimal_digits_part (n : Nat) : Part (decimal_digits n) :=
  ⟨decimal_digits_nonempty n, fun c hc => by rw [decimal_digits_digits hc, Bool.true_or]⟩

/-- The version with these numbers. -/
def numeric (ns : List Nat) (h : ns ≠ []) : Dotted where
  parts := ns.map decimal_digits
  nonempty := fun hnil => h (List.map_eq_nil_iff.mp hnil)
  parted := by
    intro s hs
    obtain ⟨n, -, rfl⟩ := List.mem_map.mp hs
    exact decimal_digits_part n

theorem numeric_numeric {ns : List Nat} {h : ns ≠ []} : (numeric ns h).Numeric := by
  intro s hs c hc
  obtain ⟨n, -, rfl⟩ := List.mem_map.mp hs
  exact decimal_digits_digits hc

theorem numbers_numeric {ns : List Nat} {h : ns ≠ []} : (numeric ns h).numbers = ns := by
  rw [Dotted.numbers, numeric, List.map_map]
  exact (List.map_congr_left fun n _ => digits_value_decimal n).trans (List.map_id ns)

/-- The version `w.0`. -/
def Dotted.with_zero (w : Dotted) : Dotted where
  parts := w.parts ++ [[0x30]]
  nonempty := List.append_ne_nil_of_right_ne_nil w.parts (List.cons_ne_nil _ _)
  parted := by
    intro s hs
    rcases List.mem_append.mp hs with hs | hs
    · exact w.parted s hs
    · rw [List.mem_singleton.mp hs]
      decide

theorem Dotted.text_with_zero (w : Dotted) : w.with_zero.text = w.text ++ bytes_of ".0" := by
  obtain ⟨front, last, hparts, -⟩ := w.front_last
  have htext : w.with_zero.text = join_dots (w.parts ++ [[0x30]]) := rfl
  rw [htext, join_dots_concat, Dotted.text, hparts, join_dots_concat, List.flatMap_append, List.flatMap_singleton]
  have hzero : bytes_of ".0" = [dot] ++ [0x30] := by decide
  rw [hzero]
  simp only [List.append_assoc]

theorem Dotted.Numeric.with_zero (hw : w.Numeric) : w.with_zero.Numeric := by
  intro s hs c hc
  rcases List.mem_append.mp hs with hs | hs
  · exact hw s hs c hc
  · rw [List.mem_singleton.mp hs] at hc
    rw [List.mem_singleton.mp hc]
    decide

theorem Dotted.numbers_with_zero (w : Dotted) : w.with_zero.numbers = w.numbers ++ [0] :=
  List.map_append

/-- `Gem::Requirement.new("~> v")` -/
def Reginold.pessimistic_requirement (R : Reginold) (v : Dotted) : Requirement :=
  R.requirement_new [bytes_of "~> " ++ v.text]

/-- `~>` accepts the versions that are not below its own and below its bumped
one, and `w.0` like `w`. -/
def Reginold.PessimisticLaw (R : Reginold) (v : Dotted) : Prop :=
  ∀ w : Dotted, w.Numeric →
    (R.Satisfied (R.pessimistic_requirement v) w.text ↔ ¬ Below w.numbers v.numbers ∧ Below w.numbers (bump v.numbers)) ∧
    (R.Satisfied (R.pessimistic_requirement v) (w.text ++ bytes_of ".0") ↔ R.Satisfied (R.pessimistic_requirement v) w.text)

theorem pessimistic_requirement_eq (hR : R.Documented) (v : Dotted) :
    R.pessimistic_requirement v = requirement_of [(.pessimistic, v)] := by
  have htext : (requirement_of [(.pessimistic, v)]).to_s = bytes_of "~> " ++ v.text := by
    have hoperator : bytes_of "~> " = Operator.pessimistic.text ++ bytes_of " " := by decide
    rw [hoperator]
    simp [requirement_of, Requirement.to_s]
  rw [← hR.read_one, htext]
  rfl

theorem alone_one : Alone 1 := by
  apply alone_of_neighbours
  · decide +kernel
  · intro m hm
    obtain rfl : 0 = m := by omega
    decide +kernel

theorem alone_two : Alone 2 := by
  apply alone_of_neighbours
  · decide +kernel
  · intro m hm
    obtain rfl : 1 = m := by omega
    decide +kernel

end texts

end stoned.rubygems
