import Mathlib.Algebra.Order.Ring.Int

namespace stoned.program.calendar

/-! The Gregorian calendar, in all years: its days, their succession and the
numberings of them. -/

def leap (year : Int) : Prop := year % 4 = 0 ∧ (year % 100 ≠ 0 ∨ year % 400 = 0)

instance (year : Int) : Decidable (leap year) := inferInstanceAs (Decidable (_ ∧ _))

def month_length (year month : Int) : Int :=
  if month = 2 then if leap year then 29 else 28
  else if month = 4 ∨ month = 6 ∨ month = 9 ∨ month = 11 then 30
  else 31

@[ext]
structure Day where
  year : Int
  month : Int
  day : Int
  deriving DecidableEq

namespace Day

structure Valid (d : Day) : Prop where
  month_from : 1 ≤ d.month
  month_to : d.month ≤ 12
  day_from : 1 ≤ d.day
  day_to : d.day ≤ month_length d.year d.month

/-- The day after. -/
def next (d : Day) : Day :=
  if d.day < month_length d.year d.month then ⟨d.year, d.month, d.day + 1⟩
  else if d.month < 12 then ⟨d.year, d.month + 1, 1⟩
  else ⟨d.year + 1, 1, 1⟩

/-- The order of the years, then of the months, then of the days. -/
def Before (d e : Day) : Prop :=
  d.year < e.year ∨ d.year = e.year ∧ (d.month < e.month ∨ d.month = e.month ∧ d.day < e.day)

instance (d e : Day) : Decidable (d.Before e) := inferInstanceAs (Decidable (_ ∨ _))

end Day

theorem month_length_bounds (year month : Int) : 28 ≤ month_length year month ∧ month_length year month ≤ 31 := by
  unfold month_length
  split
  · split <;> omega
  · split <;> omega

theorem valid_of {year month day : Int} (hfrom : 1 ≤ month) (hto : month ≤ 12) (hday : 1 ≤ day) (hlast : day ≤ month_length year month) :
    (⟨year, month, day⟩ : Day).Valid := ⟨hfrom, hto, hday, hlast⟩

theorem first_valid {year month : Int} (hfrom : 1 ≤ month) (hto : month ≤ 12) : (⟨year, month, 1⟩ : Day).Valid := by
  have hlength := month_length_bounds year month
  exact valid_of hfrom hto (by omega) (by omega)

theorem Day.Valid.next {d : Day} (h : d.Valid) : d.next.Valid := by
  have hlow := h.month_from
  have hhigh := h.month_to
  have hday := h.day_from
  unfold Day.next
  split
  · exact valid_of hlow hhigh (by omega) (by omega)
  · split
    · exact first_valid (by omega) (by omega)
    · exact first_valid (by omega) (by omega)

theorem Day.before_trichotomy (d e : Day) : d.Before e ∨ d = e ∨ e.Before d := by
  unfold Day.Before
  rw [Day.ext_iff]
  omega

/-- The numberings of the days that count on from one to the next. -/
def Numbering (number : Day → Int) : Prop := ∀ d : Day, d.Valid → number d.next = number d + 1

namespace Numbering
variable {number : Day → Int}

/-- Every day is as far into its month as it says. -/
theorem day_eq (h : Numbering number) (year : Int) {month day : Int} (hfrom : 1 ≤ month) (hto : month ≤ 12) (hday : 1 ≤ day)
    (hlast : day ≤ month_length year month) : number ⟨year, month, day⟩ = number ⟨year, month, 1⟩ + day - 1 := by
  induction day, hday using Int.leInduction with
  | base => omega
  | succ day hday ih =>
    have hprevious := ih (by omega)
    have hnext := h ⟨year, month, day⟩ (valid_of hfrom hto hday (by omega))
    rw [Day.next, if_pos (show day < month_length year month by omega)] at hnext
    change number ⟨year, month, day + 1⟩ = _ at hnext
    omega

theorem month_eq (h : Numbering number) (year month : Int) (hfrom : 1 ≤ month) (hto : month < 12) :
    number ⟨year, month + 1, 1⟩ = number ⟨year, month, 1⟩ + month_length year month := by
  have hlength := month_length_bounds year month
  have hday := h.day_eq year hfrom hto.le (by omega) (Int.le_refl _)
  have hnext := h ⟨year, month, month_length year month⟩ (valid_of hfrom hto.le (by omega) (Int.le_refl _))
  rw [Day.next, if_neg (lt_irrefl _), if_pos hto] at hnext
  change number ⟨year, month + 1, 1⟩ = _ at hnext
  omega

/-- A month ends before every later one of its year. -/
theorem month_le (h : Numbering number) (year : Int) {month later : Int} (hfrom : 1 ≤ month) (hlater : month + 1 ≤ later) (hto : later ≤ 12) :
    number ⟨year, month, 1⟩ + month_length year month ≤ number ⟨year, later, 1⟩ := by
  induction later, hlater using Int.leInduction with
  | base => exact (h.month_eq year month hfrom (by omega)).ge
  | succ later hlater ih =>
    have hprevious := ih (by omega)
    have hlength := month_length_bounds year later
    have hmonth := h.month_eq year later (by omega) (by omega)
    omega

theorem year_eq (h : Numbering number) (year : Int) : number ⟨year + 1, 1, 1⟩ = number ⟨year, 12, 1⟩ + month_length year 12 := by
  have hlength := month_length_bounds year 12
  have hday := h.day_eq year (show (1 : Int) ≤ 12 by decide) (by decide) (by omega) (Int.le_refl _)
  have hnext := h ⟨year, 12, month_length year 12⟩ (valid_of (by omega) (by omega) (by omega) (Int.le_refl _))
  rw [Day.next, if_neg (lt_irrefl _), if_neg (lt_irrefl _)] at hnext
  change number ⟨year + 1, 1, 1⟩ = _ at hnext
  omega

theorem year_le (h : Numbering number) {year later : Int} (hlater : year + 1 ≤ later) :
    number ⟨year, 12, 1⟩ + month_length year 12 ≤ number ⟨later, 1, 1⟩ := by
  induction later, hlater using Int.leInduction with
  | base => exact (h.year_eq year).ge
  | succ later hlater ih =>
    have hlength := month_length_bounds later 12
    have hlength' := month_length_bounds later 1
    have hmonth := h.month_le later (show (1 : Int) ≤ 1 by decide) (show 1 + 1 ≤ 12 by decide) (by decide)
    have hyear := h.year_eq later
    omega

/-- Earlier days have smaller numbers. -/
theorem lt_of_before (h : Numbering number) {d e : Day} (hd : d.Valid) (he : e.Valid) (hbefore : d.Before e) :
    number d < number e := by
  have hdday := h.day_eq d.year hd.month_from hd.month_to hd.day_from hd.day_to
  have heday := h.day_eq e.year he.month_from he.month_to he.day_from he.day_to
  have hdlast := hd.day_to
  have hefirst := he.day_from
  have hdhigh := hd.month_to
  have helow := he.month_from
  change number d = _ at hdday
  change number e = _ at heday
  rcases hbefore with hyear | ⟨hyear, hmonth | ⟨hmonth, hday⟩⟩
  · have hend : number ⟨d.year, d.month, 1⟩ + month_length d.year d.month ≤ number ⟨d.year, 12, 1⟩ + month_length d.year 12 := by
      rcases Int.lt_or_eq_of_le hdhigh with hlt | heq
      · have hmonths := h.month_le d.year hd.month_from (show d.month + 1 ≤ 12 from hlt) (by decide)
        have hlength := month_length_bounds d.year 12
        omega
      · rw [heq]
    have hstart : number ⟨e.year, 1, 1⟩ ≤ number ⟨e.year, e.month, 1⟩ := by
      rcases Int.lt_or_eq_of_le helow with hlt | heq
      · have hmonths := h.month_le e.year (show (1 : Int) ≤ 1 by decide) (show 1 + 1 ≤ e.month from hlt) he.month_to
        have hlength := month_length_bounds e.year 1
        omega
      · rw [← heq]
    have hyears := h.year_le (show d.year + 1 ≤ e.year from hyear)
    omega
  · rw [hyear] at hdday hdlast
    have hmonths := h.month_le e.year hd.month_from (show d.month + 1 ≤ e.month from hmonth) he.month_to
    omega
  · rw [hyear, hmonth] at hdday
    omega

theorem lt_iff (h : Numbering number) {d e : Day} (hd : d.Valid) (he : e.Valid) : number d < number e ↔ d.Before e := by
  refine ⟨fun hlt => ?_, h.lt_of_before hd he⟩
  rcases d.before_trichotomy e with hbefore | rfl | hafter
  · exact hbefore
  · exact absurd hlt (lt_irrefl _)
  · have := h.lt_of_before he hd hafter
    omega

/-- No two days have one number. -/
theorem injective (h : Numbering number) {d e : Day} (hd : d.Valid) (he : e.Valid) (heq : number d = number e) : d = e := by
  rcases d.before_trichotomy e with hbefore | hsame | hafter
  · have := h.lt_of_before hd he hbefore
    omega
  · exact hsame
  · have := h.lt_of_before he hd hafter
    omega

theorem year_length (h : Numbering number) (year : Int) :
    number ⟨year + 1, 1, 1⟩ = number ⟨year, 1, 1⟩ + if leap year then 366 else 365 := by
  have h1 : number ⟨year, 2, 1⟩ = number ⟨year, 1, 1⟩ + 31 := h.month_eq year 1 (by decide) (by decide)
  have h2 : number ⟨year, 3, 1⟩ = number ⟨year, 2, 1⟩ + (if leap year then 29 else 28) := h.month_eq year 2 (by decide) (by decide)
  have h3 : number ⟨year, 4, 1⟩ = number ⟨year, 3, 1⟩ + 31 := h.month_eq year 3 (by decide) (by decide)
  have h4 : number ⟨year, 5, 1⟩ = number ⟨year, 4, 1⟩ + 30 := h.month_eq year 4 (by decide) (by decide)
  have h5 : number ⟨year, 6, 1⟩ = number ⟨year, 5, 1⟩ + 31 := h.month_eq year 5 (by decide) (by decide)
  have h6 : number ⟨year, 7, 1⟩ = number ⟨year, 6, 1⟩ + 30 := h.month_eq year 6 (by decide) (by decide)
  have h7 : number ⟨year, 8, 1⟩ = number ⟨year, 7, 1⟩ + 31 := h.month_eq year 7 (by decide) (by decide)
  have h8 : number ⟨year, 9, 1⟩ = number ⟨year, 8, 1⟩ + 31 := h.month_eq year 8 (by decide) (by decide)
  have h9 : number ⟨year, 10, 1⟩ = number ⟨year, 9, 1⟩ + 30 := h.month_eq year 9 (by decide) (by decide)
  have h10 : number ⟨year, 11, 1⟩ = number ⟨year, 10, 1⟩ + 31 := h.month_eq year 10 (by decide) (by decide)
  have h11 : number ⟨year, 12, 1⟩ = number ⟨year, 11, 1⟩ + 30 := h.month_eq year 11 (by decide) (by decide)
  have h12 : number ⟨year + 1, 1, 1⟩ = number ⟨year, 12, 1⟩ + 31 := h.year_eq year
  split at h2
  · rename_i hleap
    rw [if_pos hleap]
    omega
  · rename_i hleap
    rw [if_neg hleap]
    omega

/-- The day of the year. -/
theorem day_of_year (h : Numbering number) {d : Day} (hd : d.Valid) :
    1 ≤ number d - number ⟨d.year, 1, 1⟩ + 1 ∧ number d - number ⟨d.year, 1, 1⟩ + 1 ≤ if leap d.year then 366 else 365 := by
  have hfirst : (⟨d.year, 1, 1⟩ : Day).Valid := first_valid (by decide) (by decide)
  have hlength := h.year_length d.year
  have hlast := h.lt_of_before hd (@first_valid (d.year + 1) 1 (by decide) (by decide)) (.inl (Int.lt_succ d.year))
  have hlow := hd.month_from
  have hday := hd.day_from
  constructor
  · rcases d.before_trichotomy ⟨d.year, 1, 1⟩ with hbefore | heq | hafter
    · rcases hbefore with hyear | ⟨-, hmonth | ⟨hmonth, hless⟩⟩
      · exact absurd hyear (lt_irrefl _)
      · exact absurd (show d.month < 1 from hmonth) (by omega)
      · exact absurd (show d.day < 1 from hless) (by omega)
    · have hsame := congrArg number heq
      omega
    · have := h.lt_of_before hfirst hd hafter
      omega
  · omega

end Numbering

end stoned.program.calendar
