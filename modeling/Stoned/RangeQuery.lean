import Stoned.Ranges

namespace stoned.ranges

open program program.signed

/-! What a range of integers answers, compared with the list of its numbers. -/

/-! ### Arrays of numbers -/

section
variable {stop : Int64 → List Int64 → Bool} {c : Counter} {is arr front rest : List Int64} {first i : Int64} {n : Nat}

/-- All of some numbers are added to an array. -/
def Wanted (stop : Int64 → List Int64 → Bool) (arr : List Int64) : List Int64 → Prop
  | [] => True
  | i :: is => stop i arr = false ∧ Wanted stop (arr ++ [i]) is

theorem through_wanted (h : Wanted stop arr is) : Counter.through (push_one stop) is arr = .ok (arr ++ is) := by
  induction is generalizing arr with
  | nil => rw [Counter.through, List.append_nil]
  | cons i is ih =>
    rw [Counter.through, push_one, h.1]
    simp only [Bool.false_eq_true, if_false, Except.bind]
    rw [ih h.2, List.append_assoc]
    rfl

theorem through_stopped (rest : List Int64) (h : Wanted stop arr front) (hstop : stop i (arr ++ front) = true) :
    Counter.through (push_one stop) (front ++ i :: rest) arr = .error (arr ++ front) := by
  induction front generalizing arr with
  | nil =>
    rw [List.append_nil] at hstop ⊢
    rw [List.nil_append, Counter.through, push_one, hstop]
    rfl
  | cons j front ih =>
    rw [List.cons_append, Counter.through, push_one, h.1]
    simp only [Bool.false_eq_true, if_false, Except.bind]
    rw [ih h.2 (by simpa using hstop)]
    simp

theorem push_until_wanted (h : c.Takes first is) (hwanted : Wanted stop [] is) :
    ComesWhen (Fits (c.beyond first is)) (fun fuel => push_until stop c fuel first) is := by
  have hthrough : Counter.through (push_one stop) is [] = .ok is := through_wanted hwanted
  constructor
  · intro hfits
    refine ⟨is.length + 1, fun fuel hfuel => ?_⟩
    simp only [push_until, Counter.loop_eq h hfuel, hthrough, if_pos hfits]
    rfl
  · intro hfits fuel
    simp only [push_until, Counter.loop_overflows h hthrough hfits]
    rfl

theorem push_until_stopped (h : c.Takes first (front ++ i :: rest)) (hwanted : Wanted stop [] front) (hstop : stop i front = true) :
    Comes (fun fuel => push_until stop c fuel first) front := by
  refine ⟨(front ++ i :: rest).length + 1, fun fuel hfuel => ?_⟩
  have hthrough := through_stopped rest hwanted (by simpa using hstop)
  simp only [push_until, Counter.loop_eq h hfuel, hthrough]
  rfl

theorem wanted_always : Wanted (fun _ _ => false) arr is := by
  induction is generalizing arr with
  | nil => trivial
  | cons i is ih => exact ⟨rfl, ih⟩

theorem wanted_of_all {p : Int64 → Bool} (h : ∀ i ∈ is, p i = true) : Wanted (fun i _ => !p i) arr is := by
  induction is generalizing arr with
  | nil => trivial
  | cons i is ih => exact ⟨by simp [h i List.mem_cons_self], ih fun j hj => h j (List.mem_cons_of_mem _ hj)⟩

theorem wanted_of_length (n : Int64) (h : (arr.length + is.length : Int) ≤ n.toInt) :
    Wanted (fun _ arr => n.toInt ≤ arr.length) arr is := by
  induction is generalizing arr with
  | nil => trivial
  | cons i is ih =>
    rw [List.length_cons] at h
    push_cast at h
    refine ⟨decide_eq_false (by omega), ih ?_⟩
    rw [List.length_append, List.length_singleton]
    push_cast
    omega

/-- Of the numbers that a loop goes through the first ones are kept, and it breaks off
when there are enough. -/
theorem push_up_to {n : Int64} (h : c.Takes first is) (hn : 0 ≤ n) :
    ComesWhen (n.toInt < is.length ∨ Fits (c.beyond first is))
      (fun fuel => push_until (fun _ arr => n.toInt ≤ arr.length) c fuel first) (is.take n.toInt.toNat) := by
  have hnonneg : 0 ≤ n.toInt := by simpa using Int64.le_iff_toInt_le.mp hn
  obtain ⟨k, hk⟩ : ∃ k : Nat, n.toInt = k := Int.eq_ofNat_of_zero_le hnonneg
  by_cases hlt : n.toInt < is.length
  · have hinside : k < is.length := by omega
    have hlength : (is.take k).length = k := by
      rw [List.length_take]
      omega
    have hsplit : is = is.take k ++ is[k] :: is.drop (k + 1) := by
      rw [← List.drop_eq_getElem_cons, List.take_append_drop]
    have hwanted : Wanted (fun _ arr => n.toInt ≤ arr.length) [] (is.take k) :=
      wanted_of_length n (by rw [hlength, List.length_nil]; omega)
    refine .always ?_ (.inl hlt)
    rw [hk, Int.toNat_natCast]
    rw [hk] at hwanted
    rw [hsplit] at h
    exact push_until_stopped h hwanted (decide_eq_true (by rw [hlength]))
  · have hwanted : Wanted (fun _ arr => n.toInt ≤ arr.length) [] is :=
      wanted_of_length n (by rw [List.length_nil]; omega)
    rw [List.take_of_length_le (by omega)]
    exact (push_until_wanted h hwanted).congr (by simp only [hlt, false_or])

end

/-! ### Questions and answers -/

/-- What is to be answered where the numbers are those of a list. -/
def Query.Answer (numbers : List Int64) : Query → Told → Prop
  | .to_a, .array elems => elems = numbers
  | .first n, .array elems | .min_of n, .array elems => elems = numbers.take n.toInt.toNat
  | .last n, .array elems => elems = numbers.drop (numbers.length - n.toInt.toNat)
  | .max_of n, .array elems => elems = numbers.reverse.take n.toInt.toNat
  | .min, .value v => v = (numbers.head?.map .int).getD .nil
  | .max, .value v => v = (numbers.getLast?.map .int).getD .nil
  | .size, .value (.int m) => m.toInt = numbers.length
  | .sum init, .value (.int m) => m.toInt = init.toInt + (numbers.map Int64.toInt).sum
  | .count x, .value (.int m) => m.toInt = numbers.count x
  | .includes x, .value v => v = .bool (decide (x ∈ numbers))
  | _, _ => False

/-- A number of elements is asked for that is not negative. -/
def Query.Valid : Query → Prop
  | .first n | .last n | .min_of n | .max_of n => 0 ≤ n
  | _ => True

section
variable (lo hi : Int64) (exclusive : Bool)

/-- The range gives the answer that the list of its numbers gives. -/
def Query.Agrees (q : Query) : Prop :=
  ∃ told, q.Answer (members lo hi exclusive) told ∧ Comes (fun fuel => q.run fuel lo hi exclusive) told

/-- Where it does: what is added and multiplied on the way stays in 64 bits, and the
least and the greatest number are those of a range that has some. -/
def Query.Meets (q : Query) : Prop :=
  let numbers := members lo hi exclusive
  let last := last_of hi exclusive
  match q with
  | .to_a | .count _ => exclusive = true ∨ hi ≠ Int64.maxValue
  | .size => (numbers.length : Int) < 2 ^ 63
  | .first n => lo.toInt + n.toInt < 2 ^ 63
  | .last n => n = 0 ∨ -2 ^ 63 ≤ last ∧ (numbers = [] ∨ -2 ^ 63 ≤ last - n.toInt ∧ last < 2 ^ 63 - 1)
  | .min | .max => numbers ≠ []
  | .min_of n => n.toInt < numbers.length ∨ exclusive = true ∨ hi ≠ Int64.maxValue
  | .max_of n => -2 ^ 63 ≤ last ∧ (n.toInt < numbers.length ∨ lo ≠ Int64.minValue)
  | .sum init => -2 ^ 63 ≤ last ∧ (numbers = [] ∨
      (numbers.length : Int) < 2 ^ 63 ∧ Fits (lo.toInt + last) ∧ Fits (numbers.length * (lo.toInt + last)) ∧
      Fits (init.toInt + (numbers.map Int64.toInt).sum))
  | .includes _ => True

end

/-! ### The numbers of a part -/

section
variable {lo hi : Int64} {exclusive : Bool} {n : Int64}

theorem progression_append (first step : Int) (a b : Nat) :
    progression first step (a + b) = progression first step a ++ progression (first + a * step) step b := by
  simp only [progression, List.range_add, List.map_append, List.map_map]
  congr 2
  funext k
  simp only [Function.comp_apply]
  congr 1
  push_cast
  ring

theorem progression_take (first step : Int) (n count : Nat) :
    (progression first step count).take n = progression first step (min n count) := by
  simp only [progression, ← List.map_take, List.take_range]

theorem progression_drop (first step : Int) (n count : Nat) :
    (progression first step count).drop n = progression (first + n * step) step (count - n) := by
  obtain hlt | hle := Nat.lt_or_ge count n
  · rw [List.drop_eq_nil_iff.mpr (by rw [length_progression]; omega), Nat.sub_eq_zero_of_le hlt.le]
    rfl
  · obtain ⟨more, rfl⟩ := Nat.exists_eq_add_of_le hle
    rw [progression_append, Nat.add_sub_cancel_left, List.drop_left' (length_progression ..)]

theorem mem_members_iff (x : Int64) : x ∈ members lo hi exclusive ↔ lo.toInt ≤ x.toInt ∧ x.toInt ≤ last_of hi exclusive := by
  have hlo := toInt_bounds lo
  have hlast := @last_of_lt hi exclusive
  simp only [members, progression, List.mem_map, List.mem_range, Counter.lt_ascending_iff _ _ Int.one_pos, Int.mul_one]
  constructor
  · rintro ⟨k, hk, rfl⟩
    rw [Int64.toInt_ofInt_of_le (by omega) (by omega)]
    omega
  · rintro ⟨hle, hle'⟩
    refine ⟨(x.toInt - lo.toInt).toNat, by omega, ?_⟩
    rw [show lo.toInt + ((x.toInt - lo.toInt).toNat : Int) = x.toInt by omega, Int64.ofInt_toInt]

theorem members_eq_nil_iff : members lo hi exclusive = [] ↔ last_of hi exclusive < lo.toInt := by
  have hlength := @length_members lo hi exclusive
  rw [← List.length_eq_zero_iff]
  omega

/-- Ranges that begin and end with the same numbers. -/
theorem members_congr {hi' : Int64} {exclusive' : Bool} (h : last_of hi exclusive = last_of hi' exclusive') :
    members lo hi exclusive = members lo hi' exclusive' := by rw [members, members, h]

/-- The numbers behind some of them are those of a range that begins there. -/
theorem members_drop {start last : Int64} {d : Nat} (hsame : last.toInt = last_of hi exclusive) (hstart : start.toInt = lo.toInt + d) :
    (members lo hi exclusive).drop d = members start last false := by
  rw [members, progression_drop, members, hstart, Int.mul_one]
  congr 1
  rw [Counter.ascending, Counter.ascending, Int.ediv_one, Int.ediv_one]
  simp only [last_of, Bool.false_eq_true, if_false] at hsame ⊢
  omega

theorem members_nodup : (members lo hi exclusive).Nodup := by
  have hlo := toInt_bounds lo
  have hlast := @last_of_lt hi exclusive
  refine (List.nodup_map_iff_inj_on List.nodup_range).mpr fun j hj k hk heq => ?_
  rw [List.mem_range, Counter.lt_ascending_iff _ _ Int.one_pos] at hj hk
  have htoInt := congrArg Int64.toInt heq
  rw [Int64.toInt_ofInt_of_le (by omega) (by omega), Int64.toInt_ofInt_of_le (by omega) (by omega)] at htoInt
  omega

theorem actual_hi_of_le (h : -2 ^ 63 ≤ last_of hi exclusive) :
    ∃ last, actual_hi hi exclusive = some last ∧ last_of last false = last_of hi exclusive := by
  cases exclusive with
  | false => exact ⟨hi, rfl, rfl⟩
  | true =>
    have hhi := toInt_bounds hi
    have hlast : last_of hi true = hi.toInt - 1 := rfl
    obtain ⟨last, hsub, hvalue⟩ := exists_fit_eq (i := hi.toInt - (1 : Int64).toInt)
      (by rw [show (1 : Int64).toInt = 1 by decide]; exact ⟨by omega, by omega⟩)
    exact ⟨last, hsub, hvalue⟩

theorem actual_hi_of_lt (h : ¬ -2 ^ 63 ≤ last_of hi exclusive) : actual_hi hi exclusive = none := by
  have hhi := toInt_bounds hi
  cases exclusive with
  | false => exact absurd hhi.1 h
  | true =>
    refine Option.eq_none_iff_forall_ne_some.mpr fun last hsub => h ?_
    have hfits := fits_of_fit hsub
    rw [show (1 : Int64).toInt = 1 by decide] at hfits
    exact hfits.1

end

/-! ### The answers -/

section
variable {lo hi : Int64} {exclusive : Bool} {n : Int64} {q : Query} {told : Told}

/-- The range is of one mind with the list where it answers, if that is the list's answer. -/
theorem agrees_iff_of {P : Prop} (told : Told) (h : ComesWhen P (fun fuel => q.run fuel lo hi exclusive) told)
    (hanswer : P → q.Answer (members lo hi exclusive) told) : q.Agrees lo hi exclusive ↔ P := by
  constructor
  · rintro ⟨other, -, hcomes⟩
    exact (h.comes_iff.mp hcomes).1
  · intro hP
    exact ⟨told, hanswer hP, h.1 hP⟩

/-- What does not loop is answered at once. -/
theorem comes_at_once {α : Type} {run : Nat → Option α} {result : α} (h : ∀ fuel, run fuel = some result) : Comes run result :=
  ⟨0, fun fuel _ => h fuel⟩

theorem to_a_iff : Query.to_a.Agrees lo hi exclusive ↔ Query.to_a.Meets lo hi exclusive := by
  have hpush := (push_until_wanted (@members_take lo hi exclusive) wanted_always).congr fits_beyond_iff
  exact agrees_iff_of (.array (members lo hi exclusive)) (hpush.map Told.array) fun _ => rfl

theorem min_of_iff (hn : 0 ≤ n) : (Query.min_of n).Agrees lo hi exclusive ↔ (Query.min_of n).Meets lo hi exclusive := by
  have hrun : ∀ fuel, (Query.min_of n).run fuel lo hi exclusive =
      (push_until (fun _ arr => n.toInt ≤ arr.length) { goes := before_end hi exclusive, step := 1 } fuel lo).map .array :=
    fun fuel => if_neg (Int64.not_lt.mpr hn)
  have hpush := (push_up_to (@members_take lo hi exclusive) hn).congr (or_congr_right fits_beyond_iff)
  refine agrees_iff_of (.array ((members lo hi exclusive).take n.toInt.toNat)) ?_ fun _ => rfl
  simp only [hrun]
  exact hpush.map Told.array

theorem max_of_iff (hn : 0 ≤ n) : (Query.max_of n).Agrees lo hi exclusive ↔ (Query.max_of n).Meets lo hi exclusive := by
  have hrun : ∀ fuel, (Query.max_of n).run fuel lo hi exclusive = (actual_hi hi exclusive).bind fun actual =>
      (push_until (fun _ arr => n.toInt ≤ arr.length) { goes := fun i => lo ≤ i, step := -1 } fuel actual).map .array :=
    fun fuel => if_neg (Int64.not_lt.mpr hn)
  refine agrees_iff_of (.array ((members lo hi exclusive).reverse.take n.toInt.toNat)) ?_ fun _ => rfl
  simp only [hrun]
  by_cases hlast : -2 ^ 63 ≤ last_of hi exclusive
  · obtain ⟨last, hactual, hsame⟩ := actual_hi_of_le hlast
    have hpush := (push_up_to (@members_down lo last) hn).congr (or_congr_right fits_below_iff)
    rw [List.length_reverse, ← members_congr hsame.symm] at hpush
    rw [hactual]
    exact (hpush.map Told.array).congr (by simp only [Query.Meets, hlast, true_and])
  · rw [actual_hi_of_lt hlast]
    exact .never (fun _ => rfl) fun hmeets => hlast hmeets.1

/-- The first numbers are counted up to a limit, which the end of the range may come before. -/
theorem first_iff (hn : 0 ≤ n) : (Query.first n).Agrees lo hi exclusive ↔ (Query.first n).Meets lo hi exclusive := by
  have hrun : ∀ fuel, (Query.first n).run fuel lo hi exclusive = (add lo n).bind fun limit =>
      (push_until (fun i _ => !before_end hi exclusive i) { goes := fun i => i < limit, step := 1 } fuel lo).map .array :=
    fun fuel => if_neg (Int64.not_lt.mpr hn)
  have hlo := toInt_bounds lo
  have hnonneg : 0 ≤ n.toInt := by simpa using Int64.le_iff_toInt_le.mp hn
  refine agrees_iff_of (.array ((members lo hi exclusive).take n.toInt.toNat)) ?_ fun _ => rfl
  simp only [hrun]
  by_cases hfits : lo.toInt + n.toInt < 2 ^ 63
  · obtain ⟨limit, hadd, hlimit⟩ := exists_fit_eq (show Fits (lo.toInt + n.toInt) from ⟨by omega, hfits⟩)
    rw [show add lo n = some limit from hadd]
    refine .always (Comes.map Told.array ?_) hfits
    have htakes := @members_take lo limit true
    have hcount : (members lo limit true) = progression lo.toInt 1 n.toInt.toNat := by
      rw [members, Counter.ascending, Int.ediv_one]
      congr 1
      simp only [last_of, if_true]
      omega
    have hlength := @length_members lo hi exclusive
    obtain hlt | hle := Nat.lt_or_ge (members lo hi exclusive).length n.toInt.toNat
    · -- The number behind the range is come to, and breaks the loop off.
      have hinside : (members lo hi exclusive).length < (members lo limit true).length := by
        rw [hcount, length_progression]
        exact hlt
      have hvalue := htakes.value _ hinside
      have hfront : (members lo limit true).take (members lo hi exclusive).length = members lo hi exclusive := by
        rw [hcount, progression_take, Nat.min_eq_left hlt.le, members, length_progression]
      have hsplit := List.take_append_drop (members lo hi exclusive).length (members lo limit true)
      rw [List.drop_eq_getElem_cons hinside, hfront] at hsplit
      rw [← hsplit] at htakes
      rw [List.take_of_length_le hlt.le]
      refine push_until_stopped htakes (wanted_of_all fun i hi => (before_end_iff i).mpr ((mem_members_iff i).mp hi).2) ?_
      rw [Bool.not_eq_true', Bool.eq_false_iff, Ne, before_end_iff, hvalue]
      simp only [show (1 : Int64).toInt = 1 by decide]
      omega
    · have hsame : members lo limit true = (members lo hi exclusive).take n.toInt.toNat := by
        rw [hcount, members, progression_take]
        rw [members, length_progression] at hle
        rw [Nat.min_eq_left hle]
      have hpush := push_until_wanted htakes (@wanted_of_all _ _ (before_end hi exclusive) fun i hin =>
        (before_end_iff i).mpr ((mem_members_iff i).mp (List.mem_of_mem_take (hsame ▸ hin))).2)
      rw [hsame] at hpush
      exact hpush.1 (hsame ▸ fits_beyond_iff.mpr (.inl rfl))
  · rw [show add lo n = none from Option.eq_none_iff_forall_ne_some.mpr fun m hm => hfits (fits_of_fit hm).2]
    exact .never (fun _ => rfl) hfits

theorem last_iff (hn : 0 ≤ n) : (Query.last n).Agrees lo hi exclusive ↔ (Query.last n).Meets lo hi exclusive := by
  have hnonneg : 0 ≤ n.toInt := by simpa using Int64.le_iff_toInt_le.mp hn
  refine agrees_iff_of (.array ((members lo hi exclusive).drop ((members lo hi exclusive).length - n.toInt.toNat))) ?_ fun _ => rfl
  by_cases hzero : n = 0
  · refine .always (comes_at_once fun fuel => ?_) (.inl hzero)
    rw [hzero]
    simp [Query.run, ranges.last]
  have hrun : ∀ fuel, (Query.last n).run fuel lo hi exclusive = (actual_hi hi exclusive).bind fun hi =>
      if hi < lo then some (.array [])
      else
        ((sub hi n).bind (add · 1)).bind fun from_hi =>
          (push_until (fun _ _ => false) { goes := fun i => i ≤ hi, step := 1 } fuel
            (if from_hi < lo then lo else from_hi)).map .array :=
    fun fuel => (if_neg (Int64.not_lt.mpr hn)).trans (if_neg hzero)
  simp only [hrun]
  by_cases hlast : -2 ^ 63 ≤ last_of hi exclusive
  · obtain ⟨last, hactual, hsame⟩ := actual_hi_of_le hlast
    have hpos : 0 < n.toInt := by
      rcases hnonneg.lt_or_eq with hlt | heq
      · exact hlt
      · exact absurd (Int64.toInt_inj.mp heq.symm) hzero
    have hvalue : last.toInt = last_of hi exclusive := hsame
    rw [hactual]
    simp only [Option.bind_some]
    by_cases hlt : last < lo
    · have hnil : members lo hi exclusive = [] := members_eq_nil_iff.mpr (hvalue ▸ Int64.lt_iff_toInt_lt.mp hlt)
      refine .always (comes_at_once fun fuel => ?_) (.inr ⟨hlast, .inl hnil⟩)
      rw [if_pos hlt, hnil, List.drop_nil]
    · have hge : lo.toInt ≤ last.toInt := Int64.le_iff_toInt_le.mp (Int64.not_lt.mp hlt)
      have hne : members lo hi exclusive ≠ [] := fun hnil => by
        have := members_eq_nil_iff.mp hnil
        omega
      have hbounds := toInt_bounds last
      simp only [hlt, if_false]
      by_cases hroom : -2 ^ 63 ≤ last_of hi exclusive - n.toInt
      · obtain ⟨d, hsub, hd⟩ := exists_fit_eq (show Fits (last.toInt - n.toInt) from ⟨by omega, by omega⟩)
        obtain ⟨from_hi, hadd, hfrom⟩ := exists_fit_eq (show Fits (d.toInt + (1 : Int64).toInt) by
          rw [show (1 : Int64).toInt = 1 by decide]
          exact ⟨by omega, by omega⟩)
        rw [show sub last n = some d from hsub, Option.bind_some, show add d 1 = some from_hi from hadd]
        simp only [Option.bind_some]
        rw [show (1 : Int64).toInt = 1 by decide] at hfrom
        obtain ⟨start, hstart⟩ : ∃ start, (if from_hi < lo then lo else from_hi) = start := ⟨_, rfl⟩
        rw [hstart]
        have hlength := @length_members lo hi exclusive
        have hbegin : start.toInt = lo.toInt + ((members lo hi exclusive).length - n.toInt.toNat : Nat) := by
          rw [← hstart]
          split
          · next hless =>
            have := Int64.lt_iff_toInt_lt.mp hless
            omega
          · next hless =>
            have := Int64.le_iff_toInt_le.mp (Int64.not_lt.mp hless)
            omega
        have hpush := (push_until_wanted (@members_take start last false) wanted_always).congr fits_beyond_iff
        rw [← members_drop hvalue hbegin] at hpush
        refine (hpush.map Told.array).congr ?_
        have hmax : last = Int64.maxValue ↔ last.toInt = 2 ^ 63 - 1 := by
          rw [← Int64.toInt_inj]
          exact Iff.rfl
        simp only [Query.Meets, Bool.false_eq_true, false_or, Ne, hmax, hzero, hlast, hne, hroom, true_and]
        omega
      · have hnone : sub last n = none := Option.eq_none_iff_forall_ne_some.mpr fun m hm => hroom (hvalue ▸ (fits_of_fit hm).1)
        rw [hnone]
        refine .never (fun _ => rfl) fun hmeets => ?_
        rcases hmeets with heq | ⟨-, hnil | ⟨hle, -⟩⟩
        · exact hzero heq
        · exact hne hnil
        · exact hroom hle
  · rw [actual_hi_of_lt hlast]
    exact .never (fun _ => rfl) fun hmeets => hmeets.elim hzero fun h => hlast h.1

theorem includes_iff (x : Int64) : (Query.includes x).Agrees lo hi exclusive ↔ (Query.includes x).Meets lo hi exclusive := by
  refine agrees_iff_of (.value (.bool (ranges.includes lo hi exclusive x))) (.always (comes_at_once fun _ => rfl) trivial) fun _ => ?_
  change Value.bool _ = Value.bool _
  congr 1
  rw [ranges.includes, decide_eq_decide, mem_members_iff, before_end_iff, Int64.le_iff_toInt_le]

theorem size_iff : Query.size.Agrees lo hi exclusive ↔ Query.size.Meets lo hi exclusive := by
  have hlo := toInt_bounds lo
  have hhi := toInt_bounds hi
  have hlength := @length_members lo hi exclusive
  -- The length, where it is an integer of 64 bits.
  have hsize : ∀ m : Int64, ranges.size lo hi exclusive = some m ↔ m.toInt = (members lo hi exclusive).length := by
    intro m
    have hm := toInt_bounds m
    have hone : (1 : Int64).toInt = 1 := by decide
    unfold last_of at hlength
    cases exclusive with
    | true =>
      rw [ranges.size, if_pos rfl]
      rw [if_pos rfl] at hlength
      split
      · next hlt =>
        have := Int64.lt_iff_toInt_lt.mp hlt
        rw [sub, fit_eq_some]
        omega
      · next hle =>
        have := Int64.le_iff_toInt_le.mp (Int64.not_lt.mp hle)
        rw [Option.some.injEq, ← Int64.toInt_inj, Int64.toInt_zero]
        omega
    | false =>
      rw [ranges.size, if_neg Bool.false_ne_true]
      rw [if_neg Bool.false_ne_true] at hlength
      split
      · next hge =>
        have := Int64.le_iff_toInt_le.mp hge
        simp only [Option.bind_eq_some_iff, sub, add, fit_eq_some, hone]
        constructor
        · rintro ⟨d, hd, hm⟩
          omega
        · intro heq
          obtain ⟨d, hd⟩ := exists_fit (show -2 ^ 63 ≤ hi.toInt - lo.toInt by omega) (by omega)
          exact ⟨d, hd, by omega⟩
      · next hlt =>
        have := Int64.lt_iff_toInt_lt.mp (Int64.not_le.mp hlt)
        rw [Option.some.injEq, ← Int64.toInt_inj, Int64.toInt_zero]
        omega
  by_cases hmeets : ((members lo hi exclusive).length : Int) < 2 ^ 63
  · obtain ⟨m, hm⟩ := exists_fit (show -2 ^ 63 ≤ ((members lo hi exclusive).length : Int) by omega) hmeets
    refine agrees_iff_of (.value (.int m)) (.always (comes_at_once fun _ => ?_) hmeets) fun _ => hm
    exact congrArg (Option.map fun m => Told.value (.int m)) ((hsize m).mpr hm)
  · refine agrees_iff_of (.value .nil) (.never (fun _ => ?_) hmeets) fun h => absurd h hmeets
    have hnone : ranges.size lo hi exclusive = none := Option.eq_none_iff_forall_ne_some.mpr fun m hm => by
      have := toInt_bounds m
      have := (hsize m).mp hm
      omega
    exact congrArg (Option.map fun m => Told.value (.int m)) hnone

theorem head_members (hne : members lo hi exclusive ≠ []) : (members lo hi exclusive).head? = some lo := by
  have htakes := @members_take lo hi exclusive
  cases hE : members lo hi exclusive with
  | nil => exact absurd hE hne
  | cons i rest =>
    rw [hE] at htakes
    rw [htakes.head]
    rfl

theorem min_iff : Query.min.Agrees lo hi exclusive ↔ Query.min.Meets lo hi exclusive := by
  have hcomes : Comes (fun fuel => Query.min.run fuel lo hi exclusive) (.value (.int lo)) := comes_at_once fun _ => rfl
  constructor
  · rintro ⟨told, hanswer, htold⟩ hnil
    obtain rfl := htold.unique hcomes
    rw [Query.Answer, hnil] at hanswer
    cases hanswer
  · intro hne
    refine ⟨_, ?_, hcomes⟩
    rw [Query.Answer, head_members hne]
    rfl

theorem getLast_members (hne : members lo hi exclusive ≠ []) :
    ∃ last : Int64, (members lo hi exclusive).getLast? = some last ∧ last.toInt = last_of hi exclusive := by
  have htakes := @members_take lo hi exclusive
  have hlength := @length_members lo hi exclusive
  have hpos := List.length_pos_iff.mpr hne
  have hvalue := htakes.value ((members lo hi exclusive).length - 1) (by omega)
  refine ⟨_, List.getLast?_eq_some_getLast hne, ?_⟩
  rw [List.getLast_eq_getElem, hvalue]
  simp only [show (1 : Int64).toInt = 1 by decide]
  omega

theorem max_iff : Query.max.Agrees lo hi exclusive ↔ Query.max.Meets lo hi exclusive := by
  constructor
  · rintro ⟨told, hanswer, enough, htold⟩ hnil
    obtain ⟨m, -, hm⟩ := Option.map_eq_some_iff.mp (htold enough le_rfl)
    rw [← hm, Query.Answer, hnil] at hanswer
    cases hanswer
  · intro hne
    obtain ⟨last, hlast, hvalue⟩ := getLast_members hne
    have hge : lo.toInt ≤ last_of hi exclusive := not_lt.mp fun hlt => hne (members_eq_nil_iff.mpr hlt)
    obtain ⟨last', hactual, hvalue'⟩ := actual_hi_of_le ((toInt_bounds lo).1.trans hge)
    obtain rfl : last' = last := Int64.toInt_inj.mp (Eq.trans hvalue' hvalue.symm)
    refine ⟨.value (.int last'), ?_, comes_at_once fun _ => congrArg (Option.map fun m => Told.value (.int m)) hactual⟩
    rw [Query.Answer, hlast]
    rfl

/-! ### Sums and counts -/

theorem map_toInt_members :
    (members lo hi exclusive).map Int64.toInt = (List.range (members lo hi exclusive).length).map fun (k : Nat) => lo.toInt + k := by
  have htakes := @members_take lo hi exclusive
  refine List.ext_getElem (by simp) fun k hk hk' => ?_
  rw [List.length_map] at hk
  have hvalue := htakes.value k hk
  simp only [show (1 : Int64).toInt = 1 by decide, Int.mul_one] at hvalue
  simpa using hvalue

theorem twice_sum_range (first : Int) (count : Nat) :
    2 * ((List.range count).map fun (k : Nat) => first + k).sum = count * (2 * first + count - 1) := by
  induction count with
  | zero => simp
  | succ count ih =>
    rw [List.range_succ, List.map_append, List.sum_append, Int.mul_add, ih]
    simp only [List.map_cons, List.map_nil, List.sum_cons, List.sum_nil]
    push_cast
    ring

theorem twice_sum_members (hne : members lo hi exclusive ≠ []) :
    2 * ((members lo hi exclusive).map Int64.toInt).sum =
      (members lo hi exclusive).length * (lo.toInt + last_of hi exclusive) := by
  have hlength := @length_members lo hi exclusive
  have hpos := List.length_pos_iff.mpr hne
  rw [map_toInt_members, twice_sum_range]
  congr 1
  omega

/-- Gauss's sum is computed where each step of it fits. -/
theorem gauss_eq_some_iff {init last m : Int64} {count : Int} (hcount : count = last.toInt - lo.toInt + 1) (hpos : 0 < count) :
    gauss init lo last = some m ↔ Fits count ∧ Fits (lo.toInt + last.toInt) ∧ Fits (count * (lo.toInt + last.toInt)) ∧
      m.toInt = init.toInt + (count * (lo.toInt + last.toInt)).tdiv 2 := by
  have hone : (1 : Int64).toInt = 1 := by decide
  have htwo : (2 : Int64).toInt = 2 := by decide
  constructor
  · intro hgauss
    obtain ⟨width, hwidth, hgauss⟩ := Option.bind_eq_some_iff.mp hgauss
    obtain ⟨n, hn, hgauss⟩ := Option.bind_eq_some_iff.mp hgauss
    obtain ⟨ends, hends, hgauss⟩ := Option.bind_eq_some_iff.mp hgauss
    obtain ⟨twice, htwice, hgauss⟩ := Option.bind_eq_some_iff.mp hgauss
    obtain ⟨total, htotal, hgauss⟩ := Option.bind_eq_some_iff.mp hgauss
    rw [sub, fit_eq_some] at hwidth
    rw [add, fit_eq_some, hone] at hn
    rw [add, fit_eq_some] at hends hgauss
    rw [mul, fit_eq_some] at htwice
    have hquotient := (toInt_of_div htotal).2
    have hcount' : n.toInt = count := by omega
    rw [hcount', hends] at htwice
    rw [htwice, htwo] at hquotient
    exact ⟨hcount' ▸ toInt_bounds n, hends ▸ toInt_bounds ends, htwice ▸ toInt_bounds twice, by rw [hgauss, hquotient]⟩
  · rintro ⟨hfits, hends, htwice, hm⟩
    obtain ⟨width, hwidth⟩ := exists_fit (show -2 ^ 63 ≤ count - 1 by have := hfits.1; omega) (by have := hfits.2; omega)
    obtain ⟨n, hn⟩ := exists_fit hfits.1 hfits.2
    obtain ⟨ends, hends⟩ := exists_fit hends.1 hends.2
    obtain ⟨twice, htwice⟩ := exists_fit htwice.1 htwice.2
    obtain ⟨total, htotal, hquotient⟩ := exists_div (show (2 : Int64) ≠ 0 by decide)
      (show ¬ (twice = Int64.minValue ∧ (2 : Int64) = -1) from fun h => absurd h.2 (by decide))
    rw [htwo, htwice] at hquotient
    refine Option.bind_eq_some_iff.mpr ⟨width, sub_eq (by omega), Option.bind_eq_some_iff.mpr ⟨n, add_eq (by omega), ?_⟩⟩
    refine Option.bind_eq_some_iff.mpr ⟨ends, add_eq hends, Option.bind_eq_some_iff.mpr ⟨twice, mul_eq (by rw [hn, hends, htwice]), ?_⟩⟩
    exact Option.bind_eq_some_iff.mpr ⟨total, htotal, add_eq (by rw [hm, hquotient])⟩

/-- The sum is the list's where the numbers are not too many and not too large. -/
theorem sum_iff (init : Int64) : (Query.sum init).Agrees lo hi exclusive ↔ (Query.sum init).Meets lo hi exclusive := by
  have hrun : ∀ fuel, (Query.sum init).run fuel lo hi exclusive =
      ((actual_hi hi exclusive).bind fun hi => if hi < lo then some init else gauss init lo hi).map fun n => .value (.int n) :=
    fun _ => rfl
  have hlength := @length_members lo hi exclusive
  by_cases hlast : -2 ^ 63 ≤ last_of hi exclusive
  · obtain ⟨last, hactual, hsame⟩ := actual_hi_of_le hlast
    have hvalue : last.toInt = last_of hi exclusive := hsame
    by_cases hlt : last < lo
    · have hnil : members lo hi exclusive = [] := members_eq_nil_iff.mpr (hvalue ▸ Int64.lt_iff_toInt_lt.mp hlt)
      refine agrees_iff_of (.value (.int init)) (.always (comes_at_once fun fuel => ?_) ⟨hlast, .inl hnil⟩) fun _ => ?_
      · rw [hrun, hactual, Option.bind_some, if_pos hlt]
        rfl
      · simp [Query.Answer, hnil]
    · have hge : lo.toInt ≤ last.toInt := Int64.le_iff_toInt_le.mp (Int64.not_lt.mp hlt)
      have hne : members lo hi exclusive ≠ [] := fun hnil => by
        have := members_eq_nil_iff.mp hnil
        omega
      have htwice := twice_sum_members hne
      have hcount : ((members lo hi exclusive).length : Int) = last.toInt - lo.toInt + 1 := by omega
      have hhalf : ((members lo hi exclusive).length * (lo.toInt + last_of hi exclusive)).tdiv 2 =
          ((members lo hi exclusive).map Int64.toInt).sum := by
        rw [← htwice]
        exact Int.mul_tdiv_cancel_left _ (by decide)
      have hgauss := fun m => @gauss_eq_some_iff lo init last m _ hcount (by omega)
      simp only [hvalue, hhalf] at hgauss
      have hanswer : ∀ fuel, (Query.sum init).run fuel lo hi exclusive = (gauss init lo last).map fun n => .value (.int n) := by
        intro fuel
        rw [hrun, hactual, Option.bind_some, if_neg hlt]
      by_cases hmeets : (Query.sum init).Meets lo hi exclusive
      · obtain ⟨-, hnil | ⟨hsmall, hends, htwice, htotal⟩⟩ := id hmeets
        · exact absurd hnil hne
        · obtain ⟨m, hm⟩ := exists_fit htotal.1 htotal.2
          have hsum := (hgauss m).mpr ⟨⟨by omega, hsmall⟩, hends, htwice, hm⟩
          refine agrees_iff_of (.value (.int m)) (.always (comes_at_once fun fuel => ?_) hmeets) fun _ => hm
          rw [hanswer, hsum]
          rfl
      · have hnone : gauss init lo last = none := by
          refine Option.eq_none_iff_forall_ne_some.mpr fun m hm => hmeets ⟨hlast, .inr ?_⟩
          obtain ⟨hsmall, hends, htwice, htotal⟩ := (hgauss m).mp hm
          exact ⟨hsmall.2, hends, htwice, htotal ▸ toInt_bounds m⟩
        refine agrees_iff_of (.value .nil) (.never (fun fuel => ?_) hmeets) fun h => absurd h hmeets
        rw [hanswer, hnone]
        rfl
  · refine agrees_iff_of (.value .nil) (.never (fun fuel => ?_) fun hmeets => hlast hmeets.1) fun hmeets => absurd hmeets.1 hlast
    rw [hrun, actual_hi_of_lt hlast]
    rfl

theorem through_count {x : Int64} (is : List Int64) (cnt : Nat) :
    Counter.through (fun i cnt => (.ok (if i = x then cnt + 1 else cnt) : Except Nat Nat)) is cnt = .ok (cnt + is.count x) := by
  induction is generalizing cnt with
  | nil => rfl
  | cons i is ih =>
    rw [Counter.through]
    simp only [Except.bind]
    rw [ih, List.count_cons]
    split
    · next heq =>
      simp only [heq, beq_self_eq_true, if_true]
      congr 1
      omega
    · next hne =>
      simp [hne]

theorem count_iff (x : Int64) : (Query.count x).Agrees lo hi exclusive ↔ (Query.count x).Meets lo hi exclusive := by
  have hfew : (members lo hi exclusive).count x ≤ 1 := List.nodup_iff_count_le_one.mp members_nodup x
  have hthrough := @through_count x (members lo hi exclusive) 0
  rw [Nat.zero_add] at hthrough
  have hloop : ComesWhen (exclusive = true ∨ hi ≠ Int64.maxValue) (fun fuel => ranges.count fuel lo hi exclusive x)
      ((members lo hi exclusive).count x) := by
    refine ComesWhen.congr ⟨fun hfits => ?_, fun hfits fuel => ?_⟩ (@fits_beyond_iff lo hi exclusive)
    · refine ⟨(members lo hi exclusive).length + 1, fun fuel hfuel => ?_⟩
      simp only [ranges.count, Counter.loop_eq members_take hfuel, hthrough, if_pos hfits]
      rfl
    · simp only [ranges.count, Counter.loop_overflows members_take hthrough hfits]
      rfl
  refine agrees_iff_of _ (hloop.map fun n => Told.value (.int (.ofNat n))) fun _ => ?_
  exact Int64.toInt_ofNat_of_lt (by omega)

/-- A range of integers answers as the list of its numbers does, exactly where the numbers
on the way to the answer are of 64 bits; and its least and greatest number are those of a
range that is not empty. -/
theorem query_law_iff (hvalid : q.Valid) : q.Agrees lo hi exclusive ↔ q.Meets lo hi exclusive := by
  cases q with
  | to_a => exact to_a_iff
  | size => exact size_iff
  | first n => exact first_iff hvalid
  | last n => exact last_iff hvalid
  | min => exact min_iff
  | max => exact max_iff
  | min_of n => exact min_of_iff hvalid
  | max_of n => exact max_of_iff hvalid
  | sum init => exact sum_iff init
  | includes x => exact includes_iff x
  | count x => exact count_iff x

/-- The last two numbers there are of 64 bits are not found. -/
theorem query_law_iff_of_last :
    (Query.last 2).Agrees 1 5 false ∧ ¬ (Query.last 2).Agrees 1 Int64.maxValue false := by
  have hvalid : (Query.last 2).Valid := show (0 : Int64) ≤ 2 by decide
  constructor
  · exact (query_law_iff hvalid).mpr (.inr ⟨by decide, .inr (by decide)⟩)
  · rw [query_law_iff hvalid]
    rintro (hzero | ⟨-, hnil | ⟨-, hlt⟩⟩)
    · exact absurd hzero (by decide)
    · exact absurd (members_eq_nil_iff.mp hnil) (by decide)
    · exact absurd hlt (by decide)

end

end stoned.ranges
