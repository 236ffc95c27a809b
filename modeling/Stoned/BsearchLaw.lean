import Stoned.Bsearch
import Stoned.IntegerOperators

namespace stoned.binary_search

open arrays (Answer Reply)
open program program.signed

/-! A binary search finds what it looks for, and tests nothing twice. -/

section probes
variable {ι : Type} {class_name : Value → String} {block : Nat → Value → Answer} {arg : ι → Option Value}
  {judge : Value → Except Reply Verdict} {side : ι → Verdict} {inside all : ι → Prop} {s : Probes ι} {mid : ι}

/-- The block says of each place on which side of it the search goes on. -/
def Judged (block : Nat → Value → Answer) (arg : ι → Option Value) (judge : Value → Except Reply Verdict)
    (side : ι → Verdict) (inside : ι → Prop) : Prop :=
  ∀ n i, inside i → ∃ v, arg i = some v ∧ (block n v).leaves = none ∧ judge (block n v).value = .ok (side i)

/-- Nothing among some places has been tested, unless the answer is kept. -/
structure Fresh (judge : Value → Except Reply Verdict) (side : ι → Verdict) (inside : ι → Prop) (s : Probes ι) : Prop where
  nodup : s.tested.Nodup
  kept : ∀ m v, s.first = some (m, v) → judge v = .ok (side m) ∧ m ∈ s.tested
  tested : ∀ i ∈ s.tested, inside i → ∃ v, s.first = some (i, v)

theorem Fresh.mono {inside' : ι → Prop} (h : Fresh judge side inside s) (hsub : ∀ i, inside' i → inside i) :
    Fresh judge side inside' s where
  nodup := h.nodup
  kept := h.kept
  tested i hi hin := h.tested i hi (hsub i hin)

theorem call_block_spec (hjudged : Judged block arg judge side all) (hall : all mid) :
    ∃ v, call_block block arg mid s = some (.ok v, { s with tested := s.tested ++ [mid] }) ∧ judge v = .ok (side mid) := by
  obtain ⟨v, harg, hleaves, hjudge⟩ := hjudged s.tested.length mid hall
  refine ⟨_, ?_, hjudge⟩
  rw [call_block, harg, Option.map_some]
  simp only [hleaves]

theorem test_spec [DecidableEq ι] (hjudged : Judged block arg judge side all) (hall : all mid) (h : Fresh judge side inside s)
    (hmid : inside mid) :
    ∃ v s', test block arg mid s = some (.ok v, s') ∧ judge v = .ok (side mid) ∧
      Fresh judge side (fun i => inside i ∧ i ≠ mid) s' := by
  by_cases hkept : ∃ v, s.first = some (mid, v)
  · obtain ⟨v, hfirst⟩ := hkept
    refine ⟨v, { s with first := none }, ?_, (h.kept mid v hfirst).1, ?_⟩
    · simp only [test, hfirst, if_true]
    · refine ⟨h.nodup, fun m v hnone => absurd hnone (Option.some_ne_none _).symm, fun i hi hin => ?_⟩
      obtain ⟨w, hfirst'⟩ := h.tested i hi hin.1
      rw [hfirst] at hfirst'
      exact absurd (Prod.mk.inj (Option.some.inj hfirst')).1.symm hin.2
  · have hnew : mid ∉ s.tested := fun hmem => hkept (h.tested mid hmem hmid)
    obtain ⟨v, hcall, hjudge⟩ := call_block_spec hjudged hall (s := s)
    refine ⟨v, { s with tested := s.tested ++ [mid] }, ?_, hjudge, ?_, ?_, ?_⟩
    · rw [← hcall, test]
      cases hfirst : s.first with
      | none => rfl
      | some kept =>
        obtain ⟨m, w⟩ := kept
        refine if_neg fun heq => hkept ⟨w, ?_⟩
        rw [hfirst, heq]
    · exact List.nodup_append.mpr ⟨h.nodup, List.nodup_singleton mid, fun i hi j hj heq =>
        hnew (by rw [← List.mem_singleton.mp hj, ← heq]; exact hi)⟩
    · intro m w hfirst
      obtain ⟨hside, hmem⟩ := h.kept m w hfirst
      exact ⟨hside, List.mem_append_left _ hmem⟩
    · intro i hi hin
      rcases List.mem_append.mp hi with hold | hmid'
      · exact h.tested i hold hin.1
      · exact absurd (List.mem_singleton.mp hmid') hin.2

theorem numeric_of_judged {v : Value} {verdict : Verdict} (h : judge_numeric class_name v = .ok verdict) : numeric v = true := by
  cases v <;> first | rfl | cases h

theorem truth_of_judged {v : Value} {verdict : Verdict} (h : judge_truth class_name v = .ok verdict) :
    numeric v = false ∧ truth v = true := by
  cases v <;> first | exact ⟨rfl, rfl⟩ | cases h

theorem fresh_started {v : Value} (h : judge v = .ok (side mid)) :
    Fresh judge side inside { first := some (mid, v), tested := [mid] } where
  nodup := List.nodup_singleton mid
  kept m w hfirst := by
    obtain ⟨rfl, rfl⟩ := Prod.mk.inj (Option.some.inj hfirst)
    exact ⟨h, List.mem_singleton_self _⟩
  tested i hi _ := ⟨v, by rw [List.mem_singleton.mp hi]⟩

/-- The first answer chooses the search that its kind is for. -/
theorem choose_mode_any {any minimum : Probes ι → Option (Reply × Probes ι)}
    (hjudged : Judged block arg (judge_numeric class_name) side all) (hall : all mid) :
    ∃ s, choose_mode class_name block arg mid any minimum = any s ∧ Fresh (judge_numeric class_name) side inside s := by
  obtain ⟨v, hcall, hjudge⟩ := @call_block_spec _ _ _ _ _ _ { first := none, tested := [] } _ hjudged hall
  refine ⟨{ first := some (mid, v), tested := [mid] }, ?_, fresh_started hjudge⟩
  rw [choose_mode, hcall, Option.bind_some]
  exact if_pos (numeric_of_judged hjudge)

theorem choose_mode_minimum {any minimum : Probes ι → Option (Reply × Probes ι)}
    (hjudged : Judged block arg (judge_truth class_name) side all) (hall : all mid) :
    ∃ s, choose_mode class_name block arg mid any minimum = minimum s ∧ Fresh (judge_truth class_name) side inside s := by
  obtain ⟨v, hcall, hjudge⟩ := @call_block_spec _ _ _ _ _ _ { first := none, tested := [] } _ hjudged hall
  obtain ⟨hnot, htruth⟩ := truth_of_judged hjudge
  refine ⟨{ first := some (mid, v), tested := [mid] }, ?_, fresh_started hjudge⟩
  rw [choose_mode, hcall, Option.bind_some]
  exact (if_neg (by rw [hnot]; exact Bool.false_ne_true)).trans (if_pos htruth)

end probes

/-! ### The loops -/

/-- The places to go up from come first, and those to go down from last. -/
def Ordered {ι : Type} [LE ι] (side : ι → Verdict) (inside : ι → Prop) : Prop :=
  ∀ i j, inside i → inside j → i ≤ j → (side i = .down → side j = .down) ∧ (side j = .up → side i = .up)

section arrays
variable {block : Nat → Value → Answer} {elems : List Value} {judge : Value → Except Reply Verdict}
  {found_at finish : Nat → Option Reply} {side : Nat → Verdict}

/-- Below the interval every place is one to go up from, above it one to go down from. -/
theorem search_ends (hjudged : Judged block (elems[·]?) judge side (· < elems.length))
    (hordered : Ordered side (· < elems.length)) {fuel lo hi : Nat} {s : Probes Nat} (hfuel : hi - lo < fuel) (hle : lo ≤ hi)
    (hn : hi ≤ elems.length) (hbelow : ∀ i < lo, side i = .up) (habove : ∀ i, hi ≤ i → i < elems.length → side i = .down)
    (hfresh : Fresh judge side (fun i => lo ≤ i ∧ i < hi) s) :
    ∃ s', s'.tested.Nodup ∧
      ((∃ i < elems.length, side i = .here ∧
        search block elems judge found_at finish fuel lo hi s = (found_at i).map (·, s')) ∨
      ∃ m ≤ elems.length, (∀ i < m, side i = .up) ∧ (∀ i, m ≤ i → i < elems.length → side i = .down) ∧
        search block elems judge found_at finish fuel lo hi s = (finish m).map (·, s')) := by
  induction fuel generalizing lo hi s with
  | zero => omega
  | succ fuel ih =>
    by_cases hlt : lo < hi
    · obtain ⟨mid, hmid⟩ : ∃ mid, lo + (hi - lo) / 2 = mid := ⟨_, rfl⟩
      have hin : lo ≤ mid ∧ mid < hi := by omega
      have hsize : mid < elems.length := hin.2.trans_le hn
      obtain ⟨v, s', htest, hverdict, hrest⟩ := test_spec hjudged hsize hfresh hin
      have hbind : (Except.ok v : Except Reply Value).bind judge = .ok (side mid) := hverdict
      rw [search, if_pos hlt]
      simp only [hmid, htest, Option.bind_some, hbind]
      cases hside : side mid with
      | here => exact ⟨s', hrest.nodup, .inl ⟨mid, hsize, hside, rfl⟩⟩
      | up =>
        refine ih (by omega) hin.2 hn (fun i hi => ?_) habove (hrest.mono fun i hi => ⟨⟨by omega, hi.2⟩, by omega⟩)
        exact (hordered i mid (by omega) hsize (by omega)).2 hside
      | down =>
        refine ih (by omega) hin.1 hsize.le hbelow (fun i hge hlt => ?_) (hrest.mono fun i hi => ⟨⟨hi.1, by omega⟩, by omega⟩)
        exact (hordered mid i hsize hlt hge).1 hside
    · rw [search, if_neg hlt]
      obtain rfl : lo = hi := by omega
      exact ⟨s, hfresh.nodup, .inr ⟨lo, hn, hbelow, habove, rfl⟩⟩

end arrays

section ranges
variable {block : Nat → Value → Answer} {judge : Value → Except Reply Verdict} {finish : Option Int64 → Reply}
  {side : Int64 → Verdict} {lo hi lo₀ hi₀ : Int64} {s : Probes Int64} {fuel : Nat}

/-- The integers from one to another. -/
def Between (lo hi i : Int64) : Prop := lo.toInt ≤ i.toInt ∧ i.toInt ≤ hi.toInt

/-- The sum of the bounds is not needed, but their distance is. -/
theorem midpoint_yields (hle : lo.toInt ≤ hi.toInt) (hwidth : hi.toInt - lo.toInt < 2 ^ 63) :
    ∃ mid, midpoint lo hi = some mid ∧ Between lo hi mid := by
  have hbounds := toInt_bounds lo
  have hbounds' := toInt_bounds hi
  obtain ⟨width, hsub, hw⟩ := exists_fit_eq (show Fits (hi.toInt - lo.toInt) from ⟨by omega, hwidth⟩)
  have htwo : (2 : Int64).toInt = 2 := by decide
  have hnot : ¬ (width = Int64.minValue ∧ (2 : Int64) = -1) := fun h => absurd h.2 (by decide)
  obtain ⟨half, hdiv, hh⟩ := exists_div (show (2 : Int64) ≠ 0 by decide) hnot
  rw [htwo, hw, Int.tdiv_eq_ediv_of_nonneg (by omega)] at hh
  obtain ⟨mid, hadd, hmid⟩ := exists_fit_eq (show Fits (lo.toInt + half.toInt) from ⟨by omega, by omega⟩)
  refine ⟨mid, ?_, by omega, by omega⟩
  rw [midpoint, show signed.sub hi lo = some width from hsub]
  exact (Option.bind_some ..).trans (by rw [hdiv]; exact hadd)

theorem midpoint_overflows (hwidth : 2 ^ 63 ≤ hi.toInt - lo.toInt) : midpoint lo hi = none := by
  have hnone : signed.sub hi lo = none := by
    refine Option.eq_none_iff_forall_ne_some.mpr fun width hsub => ?_
    have := fits_of_fit hsub
    exact absurd this.2 (by omega)
  rw [midpoint, hnone]
  rfl

/-- What the loop knows of the places that it has left behind. -/
structure Narrowed (side : Int64 → Verdict) (lo₀ hi₀ lo hi : Int64) (found : Option Int64) : Prop where
  lo_le : lo₀.toInt ≤ lo.toInt
  le_hi : hi.toInt ≤ hi₀.toInt
  below : ∀ i, Between lo₀ hi₀ i → i.toInt < lo.toInt → side i = .up
  above : ∀ i, Between lo₀ hi₀ i → hi.toInt < i.toInt → side i = .down
  found_eq : (found = none ∧ hi = hi₀) ∨ ∃ f, found = some f ∧ Between lo₀ hi₀ f ∧ f.toInt = hi.toInt + 1

/-- Nothing overflows: the block does not send the search beyond the last or the
first of all integers. -/
def Stays (side : Int64 → Verdict) (lo hi : Int64) : Prop :=
  (hi = Int64.maxValue → side hi ≠ .up) ∧ (lo = Int64.minValue → side lo ≠ .down)

/-- What a search that ends has found: a place to stop at, or where the places to go
down from begin. -/
def Found (finish : Option Int64 → Reply) (side : Int64 → Verdict) (inside : Int64 → Prop) (reply : Reply) : Prop :=
  (∃ i, inside i ∧ side i = .here ∧ reply = .value (.int i)) ∨
    ((∀ i, inside i → side i = .up) ∧ reply = finish none) ∨
    ∃ f, inside f ∧ side f = .down ∧ (∀ i, inside i → i.toInt < f.toInt → side i = .up) ∧ reply = finish (some f)

/-- A search ends only where nothing overflows, and there it does with enough turns. -/
theorem range_search_ends (hjudged : Judged block (fun i => some (.int i)) judge side (Between lo₀ hi₀))
    (hordered : Ordered side (Between lo₀ hi₀)) (hle₀ : lo₀.toInt ≤ hi₀.toInt) (hwidth : hi₀.toInt - lo₀.toInt < 2 ^ 63)
    {found : Option Int64} (hnarrowed : Narrowed side lo₀ hi₀ lo hi found) (hfresh : Fresh judge side (Between lo hi) s) :
    (range_search block judge finish fuel lo hi found s = none ∧ (Stays side lo₀ hi₀ → fuel ≤ (hi.toInt - lo.toInt + 1).toNat)) ∨
      ∃ reply s', range_search block judge finish fuel lo hi found s = some (reply, s') ∧ s'.tested.Nodup ∧ Stays side lo₀ hi₀ ∧
        Found finish side (Between lo₀ hi₀) reply := by
  have hmin : Int64.minValue.toInt = -2 ^ 63 := by decide
  have hmax : Int64.maxValue.toInt = 2 ^ 63 - 1 := by decide
  have hone : (1 : Int64).toInt = 1 := by decide
  have hlo₀ := toInt_bounds lo₀
  have hhi₀ := toInt_bounds hi₀
  have hfirst : Between lo₀ hi₀ lo₀ := ⟨le_rfl, hle₀⟩
  have hlast : Between lo₀ hi₀ hi₀ := ⟨hle₀, le_rfl⟩
  induction fuel generalizing lo hi s found with
  | zero => exact .inl ⟨rfl, fun _ => Nat.zero_le _⟩
  | succ fuel ih =>
    have hlo := hnarrowed.lo_le
    have hhi := hnarrowed.le_hi
    by_cases hle : lo.toInt ≤ hi.toInt
    · obtain ⟨mid, hmid, hin⟩ := midpoint_yields hle (by omega)
      obtain ⟨hin₁, hin₂⟩ := id hin
      have hall : Between lo₀ hi₀ mid := ⟨hlo.trans hin₁, hin₂.trans hhi⟩
      obtain ⟨v, s', htest, hverdict, hrest⟩ := test_spec hjudged hall hfresh hin
      have hbind : (Except.ok v : Except Reply Value).bind judge = .ok (side mid) := hverdict
      have hbelow (hup : side mid = .up) : ∀ i, Between lo₀ hi₀ i → i.toInt ≤ mid.toInt → side i = .up := fun i hi hle =>
        (hordered i mid hi hall (Int64.le_iff_toInt_le.mpr hle)).2 hup
      have habove (hdown : side mid = .down) : ∀ i, Between lo₀ hi₀ i → mid.toInt ≤ i.toInt → side i = .down := fun i hi hle =>
        (hordered mid i hall hi (Int64.le_iff_toInt_le.mpr hle)).1 hdown
      rw [range_search, if_pos (Int64.le_iff_toInt_le.mpr hle), hmid]
      simp only [Option.bind_eq_bind, Option.bind_some, htest, hbind]
      cases hside : side mid with
      | here =>
        refine .inr ⟨_, s', rfl, hrest.nodup, ⟨fun _ hup => ?_, fun _ hdown => ?_⟩, .inl ⟨mid, hall, hside, rfl⟩⟩
        · have := (hordered mid hi₀ hall hlast (Int64.le_iff_toInt_le.mpr hall.2)).2 hup
          rw [hside] at this
          cases this
        · have := (hordered lo₀ mid hfirst hall (Int64.le_iff_toInt_le.mpr hall.1)).1 hdown
          rw [hside] at this
          cases this
      | up =>
        dsimp only
        cases hadd : signed.add mid 1 with
        | none =>
          -- The next place is none of 64 bits, since this one is the last of all.
          have hbeyond : ¬ mid.toInt < 2 ^ 63 - 1 := fun hlt => by
            obtain ⟨next, hnext, -⟩ := exists_fit_eq (show Fits (mid.toInt + (1 : Int64).toInt) from ⟨by omega, by omega⟩)
            exact absurd (hadd.symm.trans hnext) (Option.some_ne_none _).symm
          have hend : hi₀ = mid := Int64.toInt_inj.mp (by omega)
          exact .inl ⟨rfl, fun hstays => absurd (hend ▸ hside) (hstays.1 (Int64.toInt_inj.mp (by omega)))⟩
        | some next =>
          have hnext : next.toInt = mid.toInt + (1 : Int64).toInt := fit_eq_some.mp hadd
          refine (ih ⟨by omega, hhi, fun i hi hlt => hbelow hside i hi (by omega), hnarrowed.above, hnarrowed.found_eq⟩
            (hrest.mono fun i hi => ⟨⟨?_, hi.2⟩, ?_⟩)).imp_left fun ⟨hnone, hfuel⟩ => ⟨hnone, fun hstays => by have := hfuel hstays; omega⟩
          · have := hi.1
            omega
          · rintro rfl
            have := hi.1
            omega
      | down =>
        dsimp only
        cases hsub : signed.sub mid 1 with
        | none =>
          have hbeyond : ¬ -2 ^ 63 < mid.toInt := fun hlt => by
            obtain ⟨next, hnext, -⟩ := exists_fit_eq (show Fits (mid.toInt - (1 : Int64).toInt) from ⟨by omega, by omega⟩)
            exact absurd (hsub.symm.trans hnext) (Option.some_ne_none _).symm
          have hend : lo₀ = mid := Int64.toInt_inj.mp (by omega)
          exact .inl ⟨rfl, fun hstays => absurd (hend ▸ hside) (hstays.2 (Int64.toInt_inj.mp (by omega)))⟩
        | some next =>
          have hnext : next.toInt = mid.toInt - (1 : Int64).toInt := fit_eq_some.mp hsub
          refine (ih ⟨hlo, by omega, hnarrowed.below, fun i hi hlt => habove hside i hi (by omega), .inr ⟨mid, rfl, hall, by omega⟩⟩
            (hrest.mono fun i hi => ⟨⟨hi.1, ?_⟩, ?_⟩)).imp_left fun ⟨hnone, hfuel⟩ => ⟨hnone, fun hstays => by have := hfuel hstays; omega⟩
          · have := hi.2
            omega
          · rintro rfl
            have := hi.2
            omega
    · rw [range_search, if_neg (fun h => hle (Int64.le_iff_toInt_le.mp h))]
      have hlo' := toInt_bounds lo
      have hhi' := toInt_bounds hi
      refine .inr ⟨_, s, rfl, hfresh.nodup, ⟨fun hmost hup => ?_, fun hleast hdown => ?_⟩, .inr ?_⟩
      · rw [hnarrowed.above hi₀ hlast (by rw [hmost]; omega)] at hup
        cases hup
      · rw [hnarrowed.below lo₀ hfirst (by rw [hleast]; omega)] at hdown
        cases hdown
      · rcases hnarrowed.found_eq with ⟨rfl, rfl⟩ | ⟨f, rfl, hf, hnext⟩
        · exact .inl ⟨fun i hi => hnarrowed.below i hi (by have := hi.2; omega), rfl⟩
        · exact .inr ⟨f, hf, hnarrowed.above f hf (by omega), fun i hi hlt => hnarrowed.below i hi (by omega), rfl⟩

end ranges

/-! ### What the block answers -/

def Positive (v : Value) : Prop :=
  (∃ n : Int64, v = .int n ∧ 0 < n.toInt) ∨ ∃ x : Double, v = .float x ∧ (Double.of_int 0).less x = true

def Zero (v : Value) : Prop := v = .int 0 ∨ ∃ x : Double, v = .float x ∧ (x == Double.of_int 0) = true

def Negative (v : Value) : Prop :=
  (∃ n : Int64, v = .int n ∧ n.toInt < 0) ∨ ∃ x : Double, v = .float x ∧ x.less (.of_int 0) = true

def Verdict.Sign : Verdict → Value → Prop
  | .up => Positive
  | .here => Zero
  | .down => Negative

section answers
variable {ι : Type} {class_name : Value → String} {v : Value} {verdict : Verdict}

/-- A block that is positive, then zero, then negative. -/
structure AnswersAny [LE ι] (block : Nat → Value → Answer) (arg : ι → Option Value) (side : ι → Verdict) (inside : ι → Prop) : Prop where
  ordered : Ordered side inside
  answers : ∀ n i, inside i → ∃ v a, arg i = some v ∧ block n v = { value := a, errored := false } ∧ (side i).Sign a

/-- A block that is false or nil up to some point, and true from there on. -/
structure AnswersMinimum [LE ι] (block : Nat → Value → Answer) (arg : ι → Option Value) (p : ι → Bool) (inside : ι → Prop) : Prop where
  ordered : ∀ i j, inside i → inside j → i ≤ j → p i = true → p j = true
  answers : ∀ n i, inside i → ∃ v a, arg i = some v ∧ block n v = { value := a, errored := false } ∧
    (if p i then a = .bool true else a = .bool false ∨ a = .nil)

theorem less_iff_value {x y : Double} : x.less y = true ↔ x.nan = false ∧ y.nan = false ∧ x.value < y.value := by
  simp [Double.less, and_assoc]

theorem sign_of_int (n : Int64) :
    sign (.of_int n) = if n.toInt = 0 then .here else if 0 < n.toInt then .up else .down := by
  have hbeq : (Double.of_int n == Double.of_int 0) = true ↔ n.toInt = 0 := by
    have hpos := @integers.positive_iff n
    have hneg := @integers.negative_iff n
    rw [less_iff_value, Double.of_int_nan, Double.of_int_nan] at hpos
    rw [integers.negative, less_iff_value, Double.of_int_nan, Double.of_int_nan] at hneg
    rw [Double.beq_iff, Double.of_int_nan, Double.of_int_nan]
    simp only [true_and] at hpos hneg ⊢
    omega
  rw [sign]
  simp only [hbeq, integers.positive_iff]

theorem judge_of_sign (h : verdict.Sign v) : judge_numeric class_name v = .ok verdict := by
  cases verdict with
  | up =>
    rcases h with ⟨n, rfl, hn⟩ | ⟨x, rfl, hx⟩
    · rw [judge_numeric, sign_of_int, if_neg (by omega), if_pos hn]
    · have hlt := less_iff_value.mp hx
      have hne : ¬ (x == Double.of_int 0) = true := fun heq => by
        have := (Double.beq_iff.mp heq).2.2
        omega
      rw [judge_numeric, sign, if_neg hne, if_pos hx]
  | here =>
    rcases h with rfl | ⟨x, rfl, hx⟩
    · rw [judge_numeric, sign_of_int, if_pos (by decide)]
    · rw [judge_numeric, sign, if_pos hx]
  | down =>
    rcases h with ⟨n, rfl, hn⟩ | ⟨x, rfl, hx⟩
    · rw [judge_numeric, sign_of_int, if_neg (by omega), if_neg (by omega)]
    · have hlt := less_iff_value.mp hx
      have hne : ¬ (x == Double.of_int 0) = true := fun heq => by
        have := (Double.beq_iff.mp heq).2.2
        omega
      have hnot : ¬ (Double.of_int 0).less x = true := fun h => by
        have := less_iff_value.mp h
        omega
      rw [judge_numeric, sign, if_neg hne, if_neg hnot]

theorem stays_of_numeric (h : judge_numeric class_name v = .ok verdict) : flow_signal_out v = none := by
  cases v <;> first | rfl | cases h

theorem stays_of_truth (h : judge_truth class_name v = .ok verdict) : flow_signal_out v = none := by
  cases v <;> first | rfl | cases h

variable {block : Nat → Value → Answer} {arg : ι → Option Value} {side : ι → Verdict} {p : ι → Bool} {inside : ι → Prop}

theorem AnswersAny.judged [LE ι] (h : AnswersAny block arg side inside) : Judged block arg (judge_numeric class_name) side inside := by
  intro n i hi
  obtain ⟨v, a, harg, hblock, hsign⟩ := h.answers n i hi
  have hjudge : judge_numeric class_name a = .ok (side i) := judge_of_sign hsign
  refine ⟨v, harg, ?_, by rw [hblock]; exact hjudge⟩
  rw [hblock]
  exact stays_of_numeric hjudge

/-- The search for the least place goes down from where the block is true. -/
def goal (p : ι → Bool) (i : ι) : Verdict := if p i then .down else .up

theorem AnswersMinimum.judged [LE ι] (h : AnswersMinimum block arg p inside) :
    Judged block arg (judge_truth class_name) (goal p) inside := by
  intro n i hi
  obtain ⟨v, a, harg, hblock, hanswer⟩ := h.answers n i hi
  have hjudge : judge_truth class_name a = .ok (goal p i) := by
    rw [goal]
    split at hanswer
    · rw [hanswer, if_pos ‹_›]
      rfl
    · rw [if_neg ‹_›]
      rcases hanswer with rfl | rfl <;> rfl
  refine ⟨v, harg, ?_, by rw [hblock]; exact hjudge⟩
  rw [hblock]
  exact stays_of_truth hjudge

theorem goal_down {i : ι} : goal p i = .down ↔ p i = true := by
  rw [goal]
  cases p i <;> decide

theorem goal_up {i : ι} : goal p i = .up ↔ p i = false := by
  rw [goal]
  cases p i <;> decide

theorem goal_ne_here {i : ι} : goal p i ≠ .here := by
  rw [goal]
  cases p i <;> decide

theorem AnswersMinimum.ordered_goal [LE ι] (h : AnswersMinimum block arg p inside) : Ordered (goal p) inside := by
  intro i j hi hj hle
  have hmono := h.ordered i j hi hj hle
  rw [goal_down, goal_down, goal_up, goal_up]
  refine ⟨hmono, fun hj => ?_⟩
  cases hpi : p i with
  | false => rfl
  | true =>
    rw [hmono hpi] at hj
    cases hj

end answers

/-! ### The law -/

section law
variable {ι : Type}

/-- Some place for which the block gives 0 is found, and nil if there is none. -/
def FindsAny (side : ι → Verdict) (inside : ι → Prop) (reply_at : ι → Option Reply) (reply : Reply) : Prop :=
  (∃ i, inside i ∧ side i = .here ∧ reply_at i = some reply) ∨ ((∀ i, inside i → side i ≠ .here) ∧ reply = .value .nil)

/-- The least place for which the block is true is found, and nil if there is none. -/
def FindsMinimum [LE ι] (p : ι → Bool) (inside : ι → Prop) (reply_at : ι → Option Reply) (reply : Reply) : Prop :=
  (∃ i, inside i ∧ p i = true ∧ (∀ j, inside j → p j = true → i ≤ j) ∧ reply_at i = some reply) ∨
    ((∀ i, inside i → p i = false) ∧ reply = .value .nil)

/-- A search comes to an end, and tests nothing twice. -/
def Ends (run : Nat → Option (Reply × Probes ι)) (found : Reply → Prop) : Prop :=
  ∃ fuel reply s, run fuel = some (reply, s) ∧ s.tested.Nodup ∧ found reply

end law

section arrays
variable {class_name : Value → String} {block : Nat → Value → Answer} {elems : List Value} {want_index : Bool}

theorem reply_at_yields {i : Nat} (hi : i < elems.length) : ∃ reply, reply_at want_index elems i = some reply := by
  cases want_index with
  | true => exact ⟨_, rfl⟩
  | false => exact ⟨.value elems[i], by rw [reply_at, List.getElem?_eq_getElem hi]; rfl⟩

/-- The first call in an array that is not empty chooses one of the loops, which ends. -/
theorem bsearch_ends {judge : Value → Except Reply Verdict} (finish : Nat → Option Reply) {side : Nat → Verdict}
    (hmode : 0 < elems.length → ∃ s, bsearch class_name block (elems.length + 1) want_index elems =
        search block elems judge (reply_at want_index elems) finish (elems.length + 1) 0 elems.length s ∧
      Fresh judge side (fun i => 0 ≤ i ∧ i < elems.length) s)
    (hjudged : Judged block (elems[·]?) judge side (· < elems.length)) (hordered : Ordered side (· < elems.length))
    {found : Reply → Prop} (hempty : elems.length = 0 → found (.value .nil))
    (hhere : ∀ i reply, i < elems.length → side i = .here → reply_at want_index elems i = some reply → found reply)
    (hends : ∀ m, m ≤ elems.length → (∀ i < m, side i = .up) → (∀ i, m ≤ i → i < elems.length → side i = .down) →
      ∃ reply, finish m = some reply ∧ found reply) :
    Ends (fun fuel => bsearch class_name block fuel want_index elems) found := by
  refine ⟨elems.length + 1, ?_⟩
  rcases Nat.eq_zero_or_pos elems.length with hzero | hpos
  · exact ⟨_, { first := none, tested := [] }, if_pos hzero, List.nodup_nil, hempty hzero⟩
  · obtain ⟨s, hsearch, hfresh⟩ := hmode hpos
    obtain ⟨s', hnodup, ⟨i, hi, hside, hrun⟩ | ⟨m, hm, hbelow, habove, hrun⟩⟩ := search_ends hjudged hordered
      (show elems.length - 0 < elems.length + 1 by omega) (Nat.zero_le _) le_rfl
      (fun i hi => absurd hi (Nat.not_lt_zero i)) (fun i hge hlt => absurd hlt (Nat.not_lt.mpr hge)) hfresh
    · obtain ⟨reply, hreply⟩ := @reply_at_yields elems want_index i hi
      exact ⟨reply, s', hsearch.trans (by rw [hrun, hreply]; rfl), hnodup, hhere i reply hi hside hreply⟩
    · obtain ⟨reply, hreply, hfound⟩ := hends m hm hbelow habove
      exact ⟨reply, s', hsearch.trans (by rw [hrun, hreply]; rfl), hnodup, hfound⟩

theorem bsearch_any {side : Nat → Verdict} (h : AnswersAny block (elems[·]?) side (· < elems.length)) :
    Ends (fun fuel => bsearch class_name block fuel want_index elems) (FindsAny side (· < elems.length) (reply_at want_index elems)) := by
  have hjudged : Judged block (elems[·]?) (judge_numeric class_name) side _ := h.judged
  refine bsearch_ends (fun _ => some (.value .nil)) (fun hpos => ?_) hjudged h.ordered (fun hzero => .inr ⟨fun i hi => by omega, rfl⟩)
    (fun i reply hi hside hreply => .inl ⟨i, hi, hside, hreply⟩)
    fun m hm hbelow habove => ⟨.value .nil, rfl, .inr ⟨fun i hi hhere => ?_, rfl⟩⟩
  · simp only [bsearch, hpos.ne', if_false]
    exact choose_mode_any hjudged (show elems.length / 2 < elems.length by omega)
  · rcases Nat.lt_or_ge i m with hlt | hge
    · exact Verdict.noConfusion ((hbelow i hlt).symm.trans hhere)
    · exact Verdict.noConfusion ((habove i hge hi).symm.trans hhere)

theorem bsearch_minimum {p : Nat → Bool} (h : AnswersMinimum block (elems[·]?) p (· < elems.length)) :
    Ends (fun fuel => bsearch class_name block fuel want_index elems)
      (FindsMinimum p (· < elems.length) (reply_at want_index elems)) := by
  have hjudged : Judged block (elems[·]?) (judge_truth class_name) (goal p) _ := h.judged
  refine bsearch_ends (fun lo => if elems.length ≤ lo then some (.value .nil) else reply_at want_index elems lo) (fun hpos => ?_)
    hjudged h.ordered_goal (fun hzero => .inr ⟨fun i hi => by omega, rfl⟩)
    (fun i reply hi hside hreply => absurd hside goal_ne_here) fun m hm hbelow habove => ?_
  · simp only [bsearch, hpos.ne', if_false]
    exact choose_mode_minimum hjudged (show elems.length / 2 < elems.length by omega)
  · by_cases hlast : elems.length ≤ m
    · exact ⟨_, if_pos hlast, .inr ⟨fun i hi => goal_up.mp (hbelow i (hi.trans_le hlast)), rfl⟩⟩
    · obtain ⟨reply, hreply⟩ := @reply_at_yields elems want_index m (by omega)
      refine ⟨reply, (if_neg hlast).trans hreply, .inl ⟨m, by omega, goal_down.mp (habove m le_rfl (by omega)), fun j hj hp => ?_, hreply⟩⟩
      by_contra hlt
      rw [goal_up.mp (hbelow j (by omega))] at hp
      cases hp

end arrays

section ranges
variable {class_name : Value → String} {block : Nat → Value → Answer} {begin_val end_val : Int64} {exclusive : Bool}
  {side : Int64 → Verdict}

/-- The last integer of a range, as far as there is one. -/
def last (end_val : Int64) (exclusive : Bool) : Int := end_val.toInt - if exclusive then 1 else 0

/-- The integers of a range. -/
def Member (begin_val end_val : Int64) (exclusive : Bool) (i : Int64) : Prop :=
  begin_val.toInt ≤ i.toInt ∧ i.toInt ≤ last end_val exclusive

/-- The integer in front of the end exists, and either there are no integers in the
range, or their distance is a signed number and the search does not have to go up from
the last integer of all or down from the first one. -/
def Searchable (begin_val end_val : Int64) (exclusive : Bool) (side : Int64 → Verdict) : Prop :=
  -2 ^ 63 ≤ last end_val exclusive ∧ (last end_val exclusive < begin_val.toInt ∨
    last end_val exclusive - begin_val.toInt < 2 ^ 63 ∧
      (last end_val exclusive = 2 ^ 63 - 1 → side Int64.maxValue ≠ .up) ∧
      (begin_val = Int64.minValue → side Int64.minValue ≠ .down))

theorem last_bound : last end_val exclusive < 2 ^ 63 := by
  have := toInt_bounds end_val
  rw [last]
  split <;> omega

/-- The end of the search, where it exists. -/
theorem range_hi_iff {hi : Int64} : range_hi end_val exclusive = some hi ↔ hi.toInt = last end_val exclusive := by
  have hone : (1 : Int64).toInt = 1 := by decide
  rw [range_hi, last]
  cases exclusive with
  | true =>
    rw [if_pos rfl, if_pos rfl, ← hone]
    exact fit_eq_some
  | false =>
    rw [if_neg Bool.false_ne_true, if_neg Bool.false_ne_true, Int.sub_zero, Option.some_inj, ← Int64.toInt_inj]
    exact eq_comm

/-- What a range comes to: no search, one that fails at once, or one of the loops. -/
theorem range_bsearch_cases (fuel : Nat) :
    (¬ -2 ^ 63 ≤ last end_val exclusive ∧ range_bsearch class_name block fuel begin_val end_val exclusive = none) ∨
    (-2 ^ 63 ≤ last end_val exclusive ∧ last end_val exclusive < begin_val.toInt ∧
      range_bsearch class_name block fuel begin_val end_val exclusive = some (.value .nil, { first := none, tested := [] })) ∨
    (2 ^ 63 ≤ last end_val exclusive - begin_val.toInt ∧ range_bsearch class_name block fuel begin_val end_val exclusive = none) ∨
    ∃ hi mid, hi.toInt = last end_val exclusive ∧ begin_val.toInt ≤ hi.toInt ∧ hi.toInt - begin_val.toInt < 2 ^ 63 ∧
      Between begin_val hi mid ∧
        range_bsearch class_name block fuel begin_val end_val exclusive = range_loops class_name block fuel begin_val hi mid := by
  by_cases hfits : -2 ^ 63 ≤ last end_val exclusive
  · obtain ⟨hi, hhi⟩ := exists_fit hfits last_bound
    have hend := range_hi_iff.mpr hhi
    simp only [range_bsearch, hend, Option.bind_eq_bind, Option.bind_some]
    by_cases hempty : hi < begin_val
    · rw [if_pos hempty]
      rw [Int64.lt_iff_toInt_lt] at hempty
      exact .inr (.inl ⟨hfits, by omega, rfl⟩)
    · rw [if_neg hempty]
      rw [Int64.lt_iff_toInt_lt] at hempty
      by_cases hwidth : hi.toInt - begin_val.toInt < 2 ^ 63
      · obtain ⟨mid, hmid, hin⟩ := midpoint_yields (by omega) hwidth
        rw [hmid]
        exact .inr (.inr (.inr ⟨hi, mid, hhi, by omega, hwidth, hin, rfl⟩))
      · rw [midpoint_overflows (by omega)]
        exact .inr (.inr (.inl ⟨by omega, rfl⟩))
  · refine .inl ⟨hfits, ?_⟩
    have hnone : range_hi end_val exclusive = none := by
      refine Option.eq_none_iff_forall_ne_some.mpr fun hi hend => hfits ?_
      rw [← range_hi_iff.mp hend]
      exact (toInt_bounds hi).1
    simp only [range_bsearch, hnone, Option.bind_eq_bind, Option.bind_none]

theorem between_of_last {hi : Int64} (h : hi.toInt = last end_val exclusive) :
    Between begin_val hi = Member begin_val end_val exclusive := by
  funext i
  rw [Between, Member, h]

/-- Where nothing overflows at the ends, the search is for all members. -/
theorem stays_iff {hi : Int64} (h : hi.toInt = last end_val exclusive) :
    Stays side begin_val hi ↔ (last end_val exclusive = 2 ^ 63 - 1 → side Int64.maxValue ≠ .up) ∧
      (begin_val = Int64.minValue → side Int64.minValue ≠ .down) := by
  have hmax : Int64.maxValue.toInt = 2 ^ 63 - 1 := by decide
  rw [Stays, ← h, ← hmax, Int64.toInt_inj]
  constructor
  · rintro ⟨hup, hdown⟩
    exact ⟨fun heq => heq ▸ hup heq, fun heq => heq ▸ hdown heq⟩
  · rintro ⟨hup, hdown⟩
    exact ⟨fun heq => heq ▸ hup heq, fun heq => heq ▸ hdown heq⟩

/-- The first call chooses the loop that goes by some way of judging. -/
def Chooses (class_name : Value → String) (block : Nat → Value → Answer) (judge : Value → Except Reply Verdict)
    (finish : Option Int64 → Reply) (side : Int64 → Verdict) (inside : Int64 → Prop) : Prop :=
  ∀ fuel lo hi mid, Between lo hi = inside → inside mid → ∃ s,
    range_loops class_name block fuel lo hi mid = range_search block judge finish fuel lo hi none s ∧ Fresh judge side inside s

variable {judge : Value → Except Reply Verdict} {finish : Option Int64 → Reply}

/-- The loop that is chosen ends only where nothing overflows. -/
theorem range_loops_ends (hchooses : Chooses class_name block judge finish side (Member begin_val end_val exclusive))
    (hjudged : Judged block (fun i => some (.int i)) judge side (Member begin_val end_val exclusive))
    (hordered : Ordered side (Member begin_val end_val exclusive)) {fuel : Nat} {hi mid : Int64}
    (hlast : hi.toInt = last end_val exclusive) (hle : begin_val.toInt ≤ hi.toInt) (hwidth : hi.toInt - begin_val.toInt < 2 ^ 63)
    (hmid : Between begin_val hi mid) :
    (range_loops class_name block fuel begin_val hi mid = none ∧
        (Stays side begin_val hi → fuel ≤ (hi.toInt - begin_val.toInt + 1).toNat)) ∨
      ∃ reply s', range_loops class_name block fuel begin_val hi mid = some (reply, s') ∧ s'.tested.Nodup ∧
        Stays side begin_val hi ∧ Found finish side (Member begin_val end_val exclusive) reply := by
  have hsame : Between begin_val hi = _ := between_of_last hlast
  obtain ⟨s, hloop, hfresh⟩ := hchooses fuel begin_val hi mid hsame (hsame ▸ hmid)
  rw [← hsame] at hjudged hordered hfresh ⊢
  rw [hloop]
  exact range_search_ends hjudged hordered hle hwidth
    ⟨le_rfl, le_rfl, fun i hi hlt => absurd hi.1 (by omega), fun i hi hlt => absurd hi.2 (by omega), .inl ⟨rfl, rfl⟩⟩ hfresh

/-- A search in a range ends where it can be done, and only there. -/
theorem range_bsearch_ends (hchooses : Chooses class_name block judge finish side (Member begin_val end_val exclusive))
    (hjudged : Judged block (fun i => some (.int i)) judge side (Member begin_val end_val exclusive))
    (hordered : Ordered side (Member begin_val end_val exclusive)) (hnil : finish none = .value .nil) {found : Reply → Prop}
    (hfound : ∀ reply, Found finish side (Member begin_val end_val exclusive) reply → found reply) :
    Ends (fun fuel => range_bsearch class_name block fuel begin_val end_val exclusive) found ↔
      Searchable begin_val end_val exclusive side := by
  constructor
  · rintro ⟨fuel, reply, s, hrun, -, -⟩
    rcases @range_bsearch_cases class_name block begin_val end_val exclusive fuel with
      ⟨-, hnone⟩ | ⟨hfits, hempty, -⟩ | ⟨-, hnone⟩ | ⟨hi, mid, hlast, hle, hwidth, hmid, hloops⟩
    · exact absurd (hnone.symm.trans hrun) (Option.some_ne_none _).symm
    · exact ⟨hfits, .inl hempty⟩
    · exact absurd (hnone.symm.trans hrun) (Option.some_ne_none _).symm
    · have hbounds := toInt_bounds hi
      rcases range_loops_ends hchooses hjudged hordered hlast hle hwidth hmid with ⟨hnone, -⟩ | ⟨_, _, -, -, hstays, -⟩
      · exact absurd ((hloops.trans hnone).symm.trans hrun) (Option.some_ne_none _).symm
      · exact ⟨by omega, .inr ⟨by omega, (stays_iff hlast).mp hstays⟩⟩
  · rintro ⟨hfits, hsearchable⟩
    obtain ⟨fuel, hfuel⟩ : ∃ fuel, (last end_val exclusive - begin_val.toInt + 1).toNat < fuel := ⟨_, Nat.lt_succ_self _⟩
    refine ⟨fuel, ?_⟩
    rcases @range_bsearch_cases class_name block begin_val end_val exclusive fuel with
      ⟨hnot, -⟩ | ⟨-, hempty, hrun⟩ | ⟨hwide, -⟩ | ⟨hi, mid, hlast, hle, hwidth, hmid, hloops⟩
    · exact absurd hfits hnot
    · exact ⟨_, _, hrun, List.nodup_nil, hfound _ (.inr (.inl ⟨fun i hi => absurd (hi.1.trans hi.2) (by omega), hnil.symm⟩))⟩
    · have hbound := @last_bound end_val exclusive
      rcases hsearchable with hempty | ⟨hnarrow, -⟩ <;> omega
    · have hstays := (stays_iff hlast).mpr (hsearchable.resolve_left (by omega)).2
      rcases @range_loops_ends _ _ _ _ _ _ _ _ hchooses hjudged hordered fuel _ _ hlast hle hwidth hmid with
        ⟨-, hmore⟩ | ⟨reply, s', hrun, hnodup, -, hreply⟩
      · have := hmore hstays
        omega
      · exact ⟨reply, s', hloops.trans hrun, hnodup, hfound reply hreply⟩

theorem range_bsearch_any (h : AnswersAny block (fun i => some (.int i)) side (Member begin_val end_val exclusive)) :
    Ends (fun fuel => range_bsearch class_name block fuel begin_val end_val exclusive)
        (FindsAny side (Member begin_val end_val exclusive) fun i => some (.value (.int i))) ↔
      Searchable begin_val end_val exclusive side := by
  have hchooses : Chooses class_name block (judge_numeric class_name) (fun _ => .value .nil) side (Member begin_val end_val exclusive) :=
    fun fuel lo hi mid _ hmid => choose_mode_any h.judged hmid
  refine range_bsearch_ends hchooses h.judged h.ordered rfl fun reply hfound => ?_
  rcases hfound with ⟨i, hi, hhere, rfl⟩ | ⟨hup, rfl⟩ | ⟨f, hf, hdown, hup, rfl⟩
  · exact .inl ⟨i, hi, hhere, rfl⟩
  · exact .inr ⟨fun i hi hhere => Verdict.noConfusion ((hup i hi).symm.trans hhere), rfl⟩
  · refine .inr ⟨fun i hi hhere => ?_, rfl⟩
    rcases lt_or_ge i.toInt f.toInt with hlt | hge
    · exact Verdict.noConfusion ((hup i hi hlt).symm.trans hhere)
    · exact Verdict.noConfusion (((h.ordered f i hf hi (Int64.le_iff_toInt_le.mpr hge)).1 hdown).symm.trans hhere)

theorem range_bsearch_minimum {p : Int64 → Bool}
    (h : AnswersMinimum block (fun i => some (.int i)) p (Member begin_val end_val exclusive)) :
    Ends (fun fuel => range_bsearch class_name block fuel begin_val end_val exclusive)
        (FindsMinimum p (Member begin_val end_val exclusive) fun i => some (.value (.int i))) ↔
      Searchable begin_val end_val exclusive (goal p) := by
  have hchooses : Chooses class_name block (judge_truth class_name) (fun found => .value ((found.map .int).getD .nil)) (goal p)
      (Member begin_val end_val exclusive) := fun fuel lo hi mid _ hmid => choose_mode_minimum h.judged hmid
  refine range_bsearch_ends hchooses h.judged h.ordered_goal rfl fun reply hfound => ?_
  rcases hfound with ⟨i, hi, hhere, -⟩ | ⟨hup, rfl⟩ | ⟨f, hf, hdown, hup, rfl⟩
  · exact absurd hhere goal_ne_here
  · exact .inr ⟨fun i hi => goal_up.mp (hup i hi), rfl⟩
  · refine .inl ⟨f, hf, goal_down.mp hdown, fun j hj hp => ?_, rfl⟩
    rw [Int64.le_iff_toInt_le]
    by_contra hlt
    rw [goal_up.mp (hup j hj (by omega))] at hp
    cases hp

end ranges

/-- The searches in arrays find what there is, and those in ranges do where no
integer they need is missing. -/
theorem bsearch_law_iff (class_name : Value → String) (block : Nat → Value → Answer) :
    (∀ elems want_index,
      (∀ side, AnswersAny block (elems[·]?) side (· < elems.length) →
        Ends (fun fuel => bsearch class_name block fuel want_index elems) (FindsAny side (· < elems.length) (reply_at want_index elems))) ∧
      ∀ p, AnswersMinimum block (elems[·]?) p (· < elems.length) →
        Ends (fun fuel => bsearch class_name block fuel want_index elems) (FindsMinimum p (· < elems.length) (reply_at want_index elems))) ∧
    ∀ begin_val end_val exclusive,
      (∀ side, AnswersAny block (fun i => some (.int i)) side (Member begin_val end_val exclusive) →
        (Ends (fun fuel => range_bsearch class_name block fuel begin_val end_val exclusive)
          (FindsAny side (Member begin_val end_val exclusive) fun i => some (.value (.int i))) ↔
            Searchable begin_val end_val exclusive side)) ∧
      ∀ p, AnswersMinimum block (fun i => some (.int i)) p (Member begin_val end_val exclusive) →
        (Ends (fun fuel => range_bsearch class_name block fuel begin_val end_val exclusive)
          (FindsMinimum p (Member begin_val end_val exclusive) fun i => some (.value (.int i))) ↔
            Searchable begin_val end_val exclusive (goal p)) :=
  ⟨fun _ _ => ⟨fun _ h => bsearch_any h, fun _ h => bsearch_minimum h⟩,
    fun _ _ _ => ⟨fun _ h => range_bsearch_any h, fun _ h => range_bsearch_minimum h⟩⟩

/-- A block with one answer. -/
theorem answers_same {ι : Type} [LE ι] {arg : ι → Option Value} {inside : ι → Prop} (b : Bool)
    (harg : ∀ i, inside i → ∃ v, arg i = some v) :
    AnswersMinimum (fun _ _ => { value := .bool b, errored := false }) arg (fun _ => b) inside where
  ordered _ _ _ _ _ h := h
  answers n i hi := by
    obtain ⟨v, hv⟩ := harg i hi
    refine ⟨v, .bool b, hv, rfl, ?_⟩
    cases b with
    | true => exact rfl
    | false => exact .inl rfl

/-- In an array and in a range of two elements the first one is the least. -/
theorem bsearch_of_two :
    Ends (fun fuel => bsearch (fun _ => "") (fun _ _ => { value := .bool true, errored := false }) fuel true [.int 5, .int 6])
      (FindsMinimum (fun _ => true) (· < 2) (reply_at true [.int 5, .int 6])) ∧
    (Ends (fun fuel => range_bsearch (fun _ => "") (fun _ _ => { value := .bool true, errored := false }) fuel 5 6 false)
      (FindsMinimum (fun _ => true) (Member 5 6 false) fun i => some (.value (.int i))) ↔
        Searchable 5 6 false (goal fun _ => true)) := by
  have hlaw := bsearch_law_iff (fun _ => "") fun _ _ => { value := .bool true, errored := false }
  refine ⟨(hlaw.1 [.int 5, .int 6] true).2 (fun _ => true) (answers_same true fun i hi => ?_),
    (hlaw.2 5 6 false).2 (fun _ => true) (answers_same true fun i _ => ⟨.int i, rfl⟩)⟩
  exact ⟨_, List.getElem?_eq_getElem hi⟩

end stoned.binary_search
