import Mathlib.Tactic.IntervalCases
import Stoned.IntegerOperators
import Stoned.Program.Calendar

namespace stoned.dates

open program program.signed program.calendar integers

/-! The class Date (eval_support.c, date_shim): a date is kept as its day number. -/

structure Date where
  jd : Int64
  deriving DecidableEq

/-- `a % b`, where that is an integer. -/
def remainder (a b : Int64) : Option Int64 := (binop_modulo a b).bind fun
  | .int r => some r
  | _ => none

/-- Date.new. -/
def Date.new (y m d : Int64) : Option Date := do
  let a ← quotient (← sub 14 m) 12
  let y2 ← sub (← add y 4800) a
  let m2 ← sub (← add m (← mul 12 a)) 3
  let jd ← add d (← quotient (← add (← mul 153 m2) 2) 5)
  let jd ← add jd (← mul 365 y2)
  let jd ← add jd (← quotient y2 4)
  let jd ← sub jd (← quotient y2 100)
  let jd ← add jd (← quotient y2 400)
  return ⟨← sub jd 32045⟩

/-- The year, the month and the day of a day number, as _from_jd and _ymd find them. -/
def civil (jdn : Int64) : Option (Int64 × Int64 × Int64) := do
  let a ← add jdn 32044
  let b ← quotient (← add (← mul 4 a) 3) 146097
  let c ← sub a (← quotient (← mul 146097 b) 4)
  let d2 ← quotient (← add (← mul 4 c) 3) 1461
  let e ← sub c (← quotient (← mul 1461 d2) 4)
  let m ← quotient (← add (← mul 5 e) 2) 153
  let d ← add (← sub e (← quotient (← add (← mul 153 m) 2) 5)) 1
  let mo ← sub (← add m 3) (← mul 12 (← quotient m 10))
  let y ← add (← sub (← add (← mul 100 b) d2) 4800) (← quotient m 10)
  return (y, mo, d)

/-- Date._from_jd. -/
def Date.from_jd (jdn : Int64) : Option Date := do
  let (y, mo, d) ← civil jdn
  Date.new y mo d

section
variable (date : Date)

/-- _ymd. -/
def Date.ymd : Option (Int64 × Int64 × Int64) := civil date.jd

/-- `+`. -/
def Date.plus (n : Int64) : Option Date := do Date.from_jd (← add date.jd n)

/-- `<=>` with a date. -/
def Date.order (other : Date) : Int64 := integer_order date.jd other.jd

def Date.yday : Option Int64 := do
  let (y, _, _) ← date.ymd
  let base ← Date.new y 1 1
  add (← sub date.jd base.jd) 1

def Date.is_leap : Option Bool := do
  let (y, _, _) ← date.ymd
  if (← remainder y 400) = 0 then return true
  if (← remainder y 100) = 0 then return false
  return (← remainder y 4) = 0

end

/-- The day number, as the formula has it. -/
def julian (d : Day) : Int :=
  d.day + (153 * (d.month + 12 * ((14 - d.month) / 12) - 3) + 2) / 5 + 365 * (d.year + 4800 - (14 - d.month) / 12) +
    (d.year + 4800 - (14 - d.month) / 12) / 4 - (d.year + 4800 - (14 - d.month) / 12) / 100 +
    (d.year + 4800 - (14 - d.month) / 12) / 400 - 32045

theorem julian_numbering : Numbering julian := by
  rintro ⟨year, month, day⟩ hvalid
  have hfrom : 1 ≤ month := hvalid.month_from
  have hto : month ≤ 12 := hvalid.month_to
  have hlast : day ≤ month_length year month := hvalid.day_to
  unfold Day.next
  split
  · unfold julian
    simp only
    omega
  · rename_i hend
    obtain rfl : day = month_length year month := by
      simp only at hend
      omega
    split
    · rename_i hmonth
      simp only at hmonth
      unfold julian
      simp only
      interval_cases month <;> simp [month_length, leap] <;> omega
    · rename_i hmonth
      simp only at hmonth
      obtain rfl : month = 12 := by omega
      unfold julian
      simp [month_length]
      omega

section
variable (j : Int)

def century : Int := (4 * (j + 32044) + 3) / 146097
def in_century : Int := j + 32044 - 146097 * century j / 4
def century_year : Int := (4 * in_century j + 3) / 1461
def in_year : Int := in_century j - 1461 * century_year j / 4
def march_month : Int := (5 * in_year j + 2) / 153
def civil_day : Day where
  year := 100 * century j + century_year j - 4800 + march_month j / 10
  month := march_month j + 3 - 12 * (march_month j / 10)
  day := in_year j - (153 * march_month j + 2) / 5 + 1

/-- A century has one day less but for the last of four. -/
theorem in_century_bounds : 0 ≤ in_century j ∧ in_century j ≤ 36524 ∧ (in_century j = 36524 → century j % 4 = 3) := by
  have hcentury : century j = (4 * (j + 32044) + 3) / 146097 := rfl
  have hquarter : 146097 * century j / 4 = 146097 * (century j / 4) + 36524 * (century j % 4) := by omega
  unfold in_century
  rw [hquarter]
  omega

theorem century_year_bounds : 0 ≤ century_year j ∧ century_year j < 100 := by
  have h := in_century_bounds j
  unfold century_year
  omega

theorem in_year_bounds : 0 ≤ in_year j ∧ in_year j ≤ 365 ∧ (in_year j = 365 → century_year j % 4 = 3 ∧ (century_year j = 99 → century j % 4 = 3)) := by
  have h := in_century_bounds j
  unfold in_year century_year
  omega

theorem in_century_eq : in_century j = 365 * century_year j + century_year j / 4 + in_year j := by
  unfold in_year
  omega

theorem number_eq : j + 32044 = 36524 * century j + century j / 4 + in_century j := by
  unfold in_century
  omega

theorem march_month_bounds : 0 ≤ march_month j ∧ march_month j ≤ 11 := by
  have h := in_year_bounds j
  unfold march_month
  omega

/-- January and February end the years that are counted from March. -/
theorem year_turn : march_month j < 10 ∧ march_month j / 10 = 0 ∨ 10 ≤ march_month j ∧ march_month j / 10 = 1 := by
  have h := march_month_bounds j
  omega

theorem civil_day_valid : (civil_day j).Valid := by
  have hyear := in_year_bounds j
  have hcentury := century_year_bounds j
  have hmonth : march_month j = (5 * in_year j + 2) / 153 := rfl
  have hm := march_month_bounds j
  have hturn := year_turn j
  refine ⟨?_, ?_, ?_, ?_⟩
  · change 1 ≤ march_month j + 3 - 12 * (march_month j / 10)
    omega
  · change march_month j + 3 - 12 * (march_month j / 10) ≤ 12
    omega
  · change 1 ≤ in_year j - (153 * march_month j + 2) / 5 + 1
    omega
  · unfold civil_day
    simp only
    generalize march_month j = m at *
    generalize in_year j = e at *
    generalize century_year j = u at *
    generalize century j = c at *
    obtain ⟨h1, h2⟩ := hm
    interval_cases m <;> simp [month_length, leap] <;> omega

theorem julian_civil : julian (civil_day j) = j := by
  have hm := march_month_bounds j
  have hturn := year_turn j
  have hcentury := century_year_bounds j
  have hin := in_century_eq j
  have hnumber := number_eq j
  have hshift : (14 - (civil_day j).month) / 12 = march_month j / 10 := by
    change (14 - (march_month j + 3 - 12 * (march_month j / 10))) / 12 = march_month j / 10
    omega
  have hyear : (civil_day j).year + 4800 - march_month j / 10 = 100 * century j + century_year j := by
    change 100 * century j + century_year j - 4800 + march_month j / 10 + 4800 - march_month j / 10 = _
    omega
  have hmonth : (civil_day j).month + 12 * (march_month j / 10) - 3 = march_month j := by
    change march_month j + 3 - 12 * (march_month j / 10) + 12 * (march_month j / 10) - 3 = _
    omega
  have hday : (civil_day j).day + (153 * march_month j + 2) / 5 = in_year j + 1 := by
    change in_year j - (153 * march_month j + 2) / 5 + 1 + _ = _
    omega
  have h4 : (100 * century j + century_year j) / 4 = 25 * century j + century_year j / 4 := by omega
  have h100 : (100 * century j + century_year j) / 100 = century j := by omega
  have h400 : (100 * century j + century_year j) / 400 = century j / 4 := by omega
  unfold julian
  rw [hshift, hyear, hmonth, hday, h4, h100, h400]
  omega

end

/-- The first law: a day number comes from the day it is converted to. -/
theorem civil_day_julian {d : Day} (hd : d.Valid) : civil_day (julian d) = d :=
  julian_numbering.injective (civil_day_valid _) hd (julian_civil _)

/-- The day that three integers name. -/
def named (y m d : Int64) : Day := ⟨y.toInt, m.toInt, d.toInt⟩

section machine
variable {y m d jdn : Int64} {j : Int}

/-- Nothing overflows on the way to a day number. -/
theorem new_ok (hvalid : (named y m d).Valid) (hlow : -2000000000 ≤ y.toInt) (hhigh : y.toInt ≤ 2000000000) :
    ∃ date, Date.new y m d = some date ∧ date.jd.toInt = julian (named y m d) := by
  have hmfrom : 1 ≤ m.toInt := hvalid.month_from
  have hmto : m.toInt ≤ 12 := hvalid.month_to
  have hdfrom : 1 ≤ d.toInt := hvalid.day_from
  have hdto : d.toInt ≤ 31 := hvalid.day_to.trans (month_length_bounds _ _).2
  unfold Date.new
  refine (sub_yields (i := 14) rfl rfl ⟨by omega, by omega⟩).bind fun t ht => ?_
  refine (quotient_yields (j := 12) ht rfl (by decide)).bind fun a ha => ?_
  refine (add_yields (j := 4800) rfl rfl ⟨by omega, by omega⟩).bind fun t ht => ?_
  refine (sub_yields ht ha ⟨by omega, by omega⟩).bind fun y2 hy2 => ?_
  refine (mul_yields (i := 12) rfl ha ⟨by omega, by omega⟩).bind fun t ht => ?_
  refine (add_yields rfl ht ⟨by omega, by omega⟩).bind fun t ht => ?_
  refine (sub_yields (j := 3) ht rfl ⟨by omega, by omega⟩).bind fun m2 hm2 => ?_
  refine (mul_yields (i := 153) rfl hm2 ⟨by omega, by omega⟩).bind fun t ht => ?_
  refine (add_yields (j := 2) ht rfl ⟨by omega, by omega⟩).bind fun t ht => ?_
  refine (quotient_yields (j := 5) ht rfl (by decide)).bind fun t ht => ?_
  refine (add_yields rfl ht ⟨by omega, by omega⟩).bind fun jd hjd => ?_
  refine (mul_yields (i := 365) rfl hy2 ⟨by omega, by omega⟩).bind fun t ht => ?_
  refine (add_yields hjd ht ⟨by omega, by omega⟩).bind fun jd hjd => ?_
  refine (quotient_yields (j := 4) hy2 rfl (by decide)).bind fun t ht => ?_
  refine (add_yields hjd ht ⟨by omega, by omega⟩).bind fun jd hjd => ?_
  refine (quotient_yields (j := 100) hy2 rfl (by decide)).bind fun t ht => ?_
  refine (sub_yields hjd ht ⟨by omega, by omega⟩).bind fun jd hjd => ?_
  refine (quotient_yields (j := 400) hy2 rfl (by decide)).bind fun t ht => ?_
  refine (add_yields hjd ht ⟨by omega, by omega⟩).bind fun jd hjd => ?_
  refine (sub_yields (j := 32045) hjd rfl ⟨by omega, by omega⟩).bind fun jd hjd => ?_
  exact ⟨⟨jd⟩, rfl, hjd⟩

/-- Nor on the way back. -/
theorem civil_ok (hj : jdn.toInt = j) (hlow : -400000000000 ≤ j) (hhigh : j ≤ 400000000000) :
    ∃ ymd : Int64 × Int64 × Int64, civil jdn = some ymd ∧ named ymd.1 ymd.2.1 ymd.2.2 = civil_day j := by
  have hcentury : -12000000 ≤ century j ∧ century j ≤ 12000000 := by
    unfold century
    omega
  have hin := in_century_bounds j
  have hyears := century_year_bounds j
  have hdays := in_year_bounds j
  have hmonth := march_month_bounds j
  unfold civil
  refine (add_yields (j := 32044) hj rfl ⟨by omega, by omega⟩).bind fun a ha => ?_
  refine (mul_yields (i := 4) rfl ha ⟨by omega, by omega⟩).bind fun t ht => ?_
  refine (add_yields (j := 3) ht rfl ⟨by omega, by omega⟩).bind fun t ht => ?_
  refine (quotient_yields (j := 146097) ht rfl (by decide)).bind fun b hb => ?_
  change b.toInt = century j at hb
  refine (mul_yields (i := 146097) rfl hb ⟨by omega, by omega⟩).bind fun t ht => ?_
  refine (quotient_yields (j := 4) ht rfl (by decide)).bind fun t ht => ?_
  refine (sub_yields ha ht ⟨by omega, by omega⟩).bind fun c hc => ?_
  change c.toInt = in_century j at hc
  refine (mul_yields (i := 4) rfl hc ⟨by omega, by omega⟩).bind fun t ht => ?_
  refine (add_yields (j := 3) ht rfl ⟨by omega, by omega⟩).bind fun t ht => ?_
  refine (quotient_yields (j := 1461) ht rfl (by decide)).bind fun d2 hd2 => ?_
  change d2.toInt = century_year j at hd2
  refine (mul_yields (i := 1461) rfl hd2 ⟨by omega, by omega⟩).bind fun t ht => ?_
  refine (quotient_yields (j := 4) ht rfl (by decide)).bind fun t ht => ?_
  refine (sub_yields hc ht ⟨by omega, by omega⟩).bind fun e he => ?_
  change e.toInt = in_year j at he
  refine (mul_yields (i := 5) rfl he ⟨by omega, by omega⟩).bind fun t ht => ?_
  refine (add_yields (j := 2) ht rfl ⟨by omega, by omega⟩).bind fun t ht => ?_
  refine (quotient_yields (j := 153) ht rfl (by decide)).bind fun m hm => ?_
  change m.toInt = march_month j at hm
  refine (mul_yields (i := 153) rfl hm ⟨by omega, by omega⟩).bind fun t ht => ?_
  refine (add_yields (j := 2) ht rfl ⟨by omega, by omega⟩).bind fun t ht => ?_
  refine (quotient_yields (j := 5) ht rfl (by decide)).bind fun t ht => ?_
  refine (sub_yields he ht ⟨by omega, by omega⟩).bind fun t ht => ?_
  refine (add_yields (j := 1) ht rfl ⟨by omega, by omega⟩).bind fun d hd => ?_
  refine (add_yields (j := 3) hm rfl ⟨by omega, by omega⟩).bind fun t ht => ?_
  refine (quotient_yields (j := 10) hm rfl (by decide)).bind fun turn hturn => ?_
  refine (mul_yields (i := 12) rfl hturn ⟨by omega, by omega⟩).bind fun u hu => ?_
  refine (sub_yields ht hu ⟨by omega, by omega⟩).bind fun mo hmo => ?_
  refine (mul_yields (i := 100) rfl hb ⟨by omega, by omega⟩).bind fun t ht => ?_
  refine (add_yields ht hd2 ⟨by omega, by omega⟩).bind fun t ht => ?_
  refine (sub_yields (j := 4800) ht rfl ⟨by omega, by omega⟩).bind fun t ht => ?_
  refine (quotient_yields (j := 10) hm rfl (by decide)).bind fun u hu => ?_
  refine (add_yields ht hu ⟨by omega, by omega⟩).bind fun y hy => ?_
  exact ⟨(y, mo, d), rfl, Day.ext hy hmo hd⟩

theorem named_injective {y' m' d' : Int64} (h : named y m d = named y' m' d') : y = y' ∧ m = m' ∧ d = d' := by
  unfold named at h
  rw [Day.mk.injEq, Int64.toInt_inj, Int64.toInt_inj, Int64.toInt_inj] at h
  exact h

/-- Every day number is that of the date made from it. -/
theorem from_jd_ok (hj : jdn.toInt = j) (hlow : -400000000000 ≤ j) (hhigh : j ≤ 400000000000) :
    ∃ date, Date.from_jd jdn = some date ∧ date.jd = jdn := by
  obtain ⟨⟨y, m, d⟩, hcivil, hnamed⟩ := civil_ok hj hlow hhigh
  have hvalid : (named y m d).Valid := by
    rw [hnamed]
    exact civil_day_valid j
  have hyear : y.toInt = 100 * century j + century_year j - 4800 + march_month j / 10 := congrArg Day.year hnamed
  have hcentury : -12000000 ≤ century j ∧ century j ≤ 12000000 := by
    unfold century
    omega
  have hyears := century_year_bounds j
  have hturn := year_turn j
  obtain ⟨date, hdate, hjd⟩ := new_ok hvalid (by omega) (by omega)
  refine ⟨date, Option.bind_eq_some_iff.mpr ⟨(y, m, d), hcivil, hdate⟩, ?_⟩
  rw [← Int64.toInt_inj, hjd, hj, hnamed, julian_civil]

end machine

/-- A day of the years that are covered. -/
structure Covered (d : Day) : Prop where
  valid : d.Valid
  year_from : -1000000000 ≤ d.year
  year_to : d.year ≤ 1000000000

theorem Covered.julian_bounds {d : Day} (h : Covered d) : -400000000000 < julian d ∧ julian d < 400000000000 := by
  have hmonth := h.valid.month_from
  have hmonth' := h.valid.month_to
  have hday := h.valid.day_from
  have hday' := h.valid.day_to.trans (month_length_bounds _ _).2
  have hyear := h.year_from
  have hyear' := h.year_to
  unfold julian
  omega

section law
variable {y m d : Int64}

theorem Covered.new_ok (h : Covered (named y m d)) : ∃ date, Date.new y m d = some date ∧ date.jd.toInt = julian (named y m d) := by
  have hlow : -1000000000 ≤ y.toInt := h.year_from
  have hhigh : y.toInt ≤ 1000000000 := h.year_to
  exact dates.new_ok h.valid (by omega) (by omega)

/-- A date keeps the day it was made from. -/
theorem Covered.ymd_ok (h : Covered (named y m d)) {date : Date} (hjd : date.jd.toInt = julian (named y m d)) :
    date.ymd = some (y, m, d) := by
  have hbounds := h.julian_bounds
  obtain ⟨⟨y', m', d'⟩, hcivil, hnamed⟩ := civil_ok hjd hbounds.1.le hbounds.2.le
  rw [civil_day_julian h.valid] at hnamed
  obtain ⟨rfl, rfl, rfl⟩ := named_injective hnamed
  exact hcivil

theorem Covered.plus_ok (h : Covered (named y m d)) {date : Date} (hjd : date.jd.toInt = julian (named y m d)) :
    ∃ next, date.plus 1 = some next ∧ ∃ y' m' d', next.ymd = some (y', m', d') ∧ named y' m' d' = (named y m d).next := by
  have hbounds := h.julian_bounds
  obtain ⟨jdn, hjdn, hjdni⟩ := @add_yields date.jd 1 _ 1 hjd rfl ⟨by omega, by omega⟩
  obtain ⟨next, hnext, rfl⟩ := from_jd_ok hjdni (by omega) (by omega)
  obtain ⟨⟨y', m', d'⟩, hcivil, hnamed⟩ := civil_ok hjdni (by omega) (by omega)
  refine ⟨next, Option.bind_eq_some_iff.mpr ⟨_, hjdn, hnext⟩, y', m', d', hcivil, ?_⟩
  rw [hnamed, ← julian_numbering _ h.valid, civil_day_julian h.valid.next]

theorem Covered.order_eq (h : Covered (named y m d)) {y' m' d' : Int64} (h' : Covered (named y' m' d')) {date other : Date}
    (hjd : date.jd.toInt = julian (named y m d)) (hjd' : other.jd.toInt = julian (named y' m' d')) :
    date.order other =
      if (named y m d).Before (named y' m' d') then -1 else if (named y' m' d').Before (named y m d) then 1 else 0 := by
  have hbounds := h.julian_bounds
  have hbounds' := h'.julian_bounds
  have hexact : date.jd.toInt = other.jd.toInt ∨ Double.round date.jd.toInt ≠ Double.round other.jd.toInt := by
    rw [Double.round_of_small (by omega), Double.round_of_small (by omega)]
    exact Decidable.em _
  unfold Date.order
  rw [integer_order_iff.mpr hexact, hjd, hjd']
  simp only [julian_numbering.lt_iff h.valid h'.valid, julian_numbering.lt_iff h'.valid h.valid]

theorem Covered.yday_ok (h : Covered (named y m d)) {date : Date} (hjd : date.jd.toInt = julian (named y m d)) :
    ∃ n, date.yday = some n ∧ n.toInt = julian (named y m d) - julian ⟨y.toInt, 1, 1⟩ + 1 := by
  have hfirst : Covered (named y 1 1) := ⟨first_valid (by decide) (by decide), h.year_from, h.year_to⟩
  have hbounds := h.julian_bounds
  have hbounds' := hfirst.julian_bounds
  obtain ⟨base, hbase, hbasei⟩ := hfirst.new_ok
  obtain ⟨t, ht, hti⟩ := sub_yields hjd hbasei ⟨by omega, by omega⟩
  obtain ⟨n, hn, hni⟩ := @add_yields t 1 _ 1 hti rfl ⟨by omega, by omega⟩
  refine ⟨n, ?_, hni⟩
  exact Option.bind_eq_some_iff.mpr ⟨(y, m, d), h.ymd_ok hjd, Option.bind_eq_some_iff.mpr ⟨base, hbase,
    Option.bind_eq_some_iff.mpr ⟨t, ht, hn⟩⟩⟩

end law

/-- Days keep what they are named by, day numbers are those of their dates, the
next day is the next one of the calendar, and the order is that of the days. -/
theorem calendar_law {y m d y' m' d' j : Int64} {first last : Date} (h : Covered (named y m d)) (h' : Covered (named y' m' d'))
    (hfirst : Date.new (-1000000000) 1 1 = some first) (hlast : Date.new 1000000000 12 31 = some last)
    (hlow : first.jd ≤ j) (hhigh : j ≤ last.jd) :
    ∃ date other next numbered n, Date.new y m d = some date ∧ date.ymd = some (y, m, d) ∧ Date.new y' m' d' = some other ∧
      date.order other = (if (named y m d).Before (named y' m' d') then -1 else if (named y' m' d').Before (named y m d) then 1 else 0) ∧
      date.plus 1 = some next ∧ (∃ a b c, next.ymd = some (a, b, c) ∧ named a b c = (named y m d).next) ∧
      Date.from_jd j = some numbered ∧ numbered.jd = j ∧ date.yday = some n ∧ 1 ≤ n.toInt ∧ n.toInt ≤ 366 := by
  obtain ⟨date, hdate, hjd⟩ := h.new_ok
  obtain ⟨other, hother, hjd'⟩ := h'.new_ok
  obtain ⟨next, hnext, hnamed⟩ := h.plus_ok hjd
  obtain ⟨n, hn, hni⟩ := h.yday_ok hjd
  have hday := julian_numbering.day_of_year h.valid
  have hspan : -400000000000 ≤ j.toInt ∧ j.toInt ≤ 400000000000 := by
    have hcovered : Covered (named (-1000000000) 1 1) := ⟨first_valid (by decide) (by decide), by decide, by decide⟩
    have hcovered' : Covered (named 1000000000 12 31) := ⟨valid_of (by decide) (by decide) (by decide) (by decide), by decide, by decide⟩
    obtain ⟨first', hfirst', hfirsti⟩ := hcovered.new_ok
    obtain ⟨last', hlast', hlasti⟩ := hcovered'.new_ok
    rw [hfirst, Option.some_inj] at hfirst'
    rw [hlast, Option.some_inj] at hlast'
    rw [← hfirst'] at hfirsti
    rw [← hlast'] at hlasti
    rw [Int64.le_iff_toInt_le] at hlow hhigh
    exact ⟨by have := hcovered.julian_bounds; omega, by have := hcovered'.julian_bounds; omega⟩
  obtain ⟨numbered, hnumbered, hsame⟩ := from_jd_ok rfl hspan.1 hspan.2
  refine ⟨date, other, next, numbered, n, hdate, h.ymd_ok hjd, hother, h.order_eq h' hjd hjd', hnext, hnamed, hnumbered, hsame, hn, ?_, ?_⟩
  · rw [hni]
    exact hday.1
  · rw [hni]
    refine hday.2.trans ?_
    split <;> decide

/-- The last of February 2024. -/
theorem calendar_law_leap_day : ∃ date other next numbered n, Date.new 2024 2 29 = some date ∧ date.ymd = some (2024, 2, 29) ∧
    Date.new 2024 3 1 = some other ∧
    date.order other = (if (named 2024 2 29).Before (named 2024 3 1) then -1 else if (named 2024 3 1).Before (named 2024 2 29) then 1 else 0) ∧
    date.plus 1 = some next ∧ (∃ a b c, next.ymd = some (a, b, c) ∧ named a b c = (named 2024 2 29).next) ∧
    Date.from_jd 0 = some numbered ∧ numbered.jd = 0 ∧ date.yday = some n ∧ 1 ≤ n.toInt ∧ n.toInt ≤ 366 := by
  have hfirst : Date.new (-1000000000) 1 1 = some ⟨-365240778940⟩ := by decide
  have hlast : Date.new 1000000000 12 31 = some ⟨365244221425⟩ := by decide
  exact calendar_law ⟨⟨by decide, by decide, by decide, by decide⟩, by decide, by decide⟩
    ⟨⟨by decide, by decide, by decide, by decide⟩, by decide, by decide⟩ hfirst hlast (by decide) (by decide)

end stoned.dates
