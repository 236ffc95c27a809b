import Mathlib.Data.List.TakeWhile
import Mathlib.Data.Nat.Digits.Lemmas
import Stoned.Versions

namespace stoned.rubygems

/-! Texts of versions: their parts, the numbers in them, and their order. -/

/-- What the shim relies on its regular expressions for. -/
structure Reginold.Documented (R : Reginold) : Prop where
  all_digits : ∀ s, R.all_digits s = true ↔ s ≠ [] ∧ ∀ c ∈ s, is_digit c = true
  any_letter : ∀ s, R.any_letter s = true ↔ ∃ c ∈ s, is_letter c = true
  constraint : ∀ (op : Operator) (c : UInt8) (v : Text), is_space c = false → 0x0a ∉ c :: v →
    R.constraint (op.text ++ bytes_of " " ++ c :: v) = some (op.text, c :: v)

/-- A part of a version: letters and digits, at least one. -/
def Part (s : Text) : Prop := s ≠ [] ∧ ∀ c ∈ s, (is_digit c || is_letter c) = true

instance (s : Text) : Decidable (Part s) := @instDecidableAnd _ _ _ (List.decidableBAll _ s)

/-- A version written as parts between dots. -/
structure Dotted where
  parts : List Text
  nonempty : parts ≠ []
  parted : ∀ s ∈ parts, Part s

def Dotted.text (v : Dotted) : Text := join_dots v.parts

theorem digit_bounds {c : UInt8} : is_digit c = true ↔ 0x30 ≤ c.toNat ∧ c.toNat ≤ 0x39 := by
  simp [is_digit, UInt8.le_iff_toNat_le]

theorem alnum_bounds {c : UInt8} (h : (is_digit c || is_letter c) = true) : 0x30 ≤ c.toNat ∧ c.toNat ≤ 0x7a := by
  simp only [is_digit, is_letter, Bool.or_eq_true, Bool.and_eq_true, decide_eq_true_eq,
    UInt8.le_iff_toNat_le] at h
  simp only [UInt8.reduceToNat] at h
  omega

theorem Part.no_dot {s : Text} (h : Part s) : dot ∉ s := by
  intro hdot
  have := alnum_bounds (h.2 _ hdot)
  simp [dot] at this

section split

theorem intercalate_concat (sep : Text) (front : List Text) (last : Text) :
    sep.intercalate (front ++ [last]) = front.flatMap (· ++ sep) ++ last := by
  induction front with
  | nil => simp
  | cons p front ih =>
    rw [List.cons_append, List.intercalate_cons_of_ne_nil (by simp), ih]
    simp

theorem join_dots_concat (front : List Text) (last : Text) :
    join_dots (front ++ [last]) = front.flatMap (· ++ [dot]) ++ last :=
  intercalate_concat [dot] front last

/-- Only an empty text, and one that ends with a dot, has an empty last part. -/
theorem getLast_splitOn {s : Text} (hs : s ≠ []) (hend : s.getLast? ≠ some dot) :
    (s.splitOn dot).getLast? ≠ some [] := by
  intro hlast
  obtain ⟨front, hfront⟩ := List.getLast?_eq_some_iff.mp hlast
  have hjoin : join_dots (s.splitOn dot) = s := List.intercalate_splitOn dot
  rw [hfront, join_dots_concat, List.append_nil] at hjoin
  rcases front.eq_nil_or_concat with rfl | ⟨front, p, rfl⟩
  · exact hs (by simpa using hjoin.symm)
  · apply hend
    rw [← hjoin]
    simp

theorem split_dots_of_end {s : Text} (hs : s ≠ []) (hend : s.getLast? ≠ some dot) :
    split_dots s = s.splitOn dot := by
  have hlast := getLast_splitOn hs hend
  rw [split_dots]
  rcases h : (s.splitOn dot).reverse with _ | ⟨last, before⟩
  · simp at h
  · have : last ≠ [] := by
      rintro rfl
      apply hlast
      rw [← List.reverse_reverse (s.splitOn dot), h]
      simp
    rw [List.dropWhile_cons_of_neg (by simpa using this), ← h, List.reverse_reverse]

theorem splitOn_append {z s : Text} (hz : dot ∉ z) :
    (z ++ s).splitOn dot = (s.splitOn dot).modifyHead (z ++ ·) := by
  induction z with
  | nil => cases h : s.splitOn dot <;> simp [h]
  | cons c z ih =>
    obtain ⟨hc, hz⟩ := not_or.mp (fun h => hz (List.mem_cons.mpr h))
    rw [List.cons_append, List.splitOn_cons_eq_if_modifyHead, ih hz, if_neg (by simpa using Ne.symm hc)]
    cases s.splitOn dot <;> simp

/-- Parts in front of a text are split off one by one. -/
theorem splitOn_parts {front : List Text} {s : Text} (hfront : ∀ p ∈ front, dot ∉ p) :
    ((front.flatMap (· ++ [dot])) ++ s).splitOn dot = front ++ s.splitOn dot := by
  induction front with
  | nil => simp
  | cons p front ih =>
    have hp := hfront p (by simp)
    simp only [List.flatMap_cons, List.append_assoc, List.cons_append, List.nil_append]
    rw [List.splitOn_append_cons_self_of_not_mem hp, ih fun q hq => hfront q (by simp [hq])]

theorem split_join {parts : List Text} (hne : parts ≠ []) (hparts : ∀ s ∈ parts, s ≠ [] ∧ dot ∉ s) :
    split_dots (join_dots parts) = parts := by
  have hsplit : (join_dots parts).splitOn dot = parts :=
    List.splitOn_intercalate dot (fun s hs => (hparts s hs).2) hne
  obtain ⟨front, last, rfl⟩ : ∃ front last, parts = front ++ [last] :=
    ⟨parts.dropLast, parts.getLast hne, (List.dropLast_append_getLast hne).symm⟩
  obtain ⟨hlast, hdot⟩ := hparts last (by simp)
  rw [split_dots_of_end, hsplit]
  · rw [join_dots_concat]
    simp [hlast]
  · rw [join_dots_concat, List.getLast?_append_of_ne_nil _ hlast]
    intro h
    exact hdot (List.mem_of_getLast? h)

theorem Dotted.split_text (v : Dotted) : split_dots v.text = v.parts :=
  split_join v.nonempty fun s hs => ⟨(v.parted s hs).1, (v.parted s hs).no_dot⟩

theorem Dotted.front_last (v : Dotted) : ∃ front last, v.parts = front ++ [last] ∧
    v.text = front.flatMap (· ++ [dot]) ++ last ∧ Part last ∧ ∀ s ∈ front, Part s := by
  have h := List.dropLast_append_getLast v.nonempty
  refine ⟨_, _, h.symm, ?_, v.parted _ (List.getLast_mem v.nonempty),
    fun s hs => v.parted s (List.mem_of_mem_dropLast hs)⟩
  rw [Dotted.text, ← join_dots_concat, h]

theorem Dotted.text_nonempty (v : Dotted) : v.text ≠ [] := by
  obtain ⟨front, last, _, htext, hlast, _⟩ := v.front_last
  simp [htext, hlast.1]

end split

section numbers

theorem digits_value_concat (ds : Text) (d : UInt8) :
    digits_value (ds ++ [d]) = digits_value ds * 10 + (d.toNat - 0x30) := by
  simp [digits_value]

theorem digits_value_reverse {ds : List Nat} (hds : ∀ d ∈ ds, d < 10) :
    digits_value ((ds.map fun d => UInt8.ofNat (0x30 + d)).reverse) = Nat.ofDigits 10 ds := by
  induction ds with
  | nil => rfl
  | cons d ds ih =>
    have hd := hds d (by simp)
    rw [List.map_cons, List.reverse_cons, digits_value_concat, ih fun d h => hds d (by simp [h]),
      Nat.ofDigits_cons, UInt8.toNat_ofNat']
    omega

theorem digits_value_decimal (n : Nat) : digits_value (decimal_digits n) = n := by
  rw [decimal_digits]
  split
  · simp_all [digits_value]
  · rw [digits_value_reverse fun d hd => Nat.digits_lt_base (by decide) hd, Nat.ofDigits_digits]

theorem decimal_digits_digits {n : Nat} {c : UInt8} (h : c ∈ decimal_digits n) : is_digit c = true := by
  rw [decimal_digits] at h
  split at h
  · simp_all [is_digit]
  · obtain ⟨d, hd, rfl⟩ : ∃ d ∈ Nat.digits 10 n, UInt8.ofNat (0x30 + d) = c := by simpa using h
    have := Nat.digits_lt_base (by decide) hd
    rw [digit_bounds, UInt8.toNat_ofNat']
    omega

theorem decimal_digits_nonempty (n : Nat) : decimal_digits n ≠ [] := by
  rw [decimal_digits]
  split
  · simp
  · simpa using Nat.digits_ne_nil_iff_ne_zero.mpr ‹_›

theorem decimal_nonempty (n : Int64) : decimal n ≠ [] := by
  simp [decimal, decimal_digits_nonempty]

theorem decimal_no_dot (n : Int64) : dot ∉ decimal n := by
  intro h
  rcases List.mem_append.mp h with h | h
  · split at h <;> simp [dot] at h
  · have := decimal_digits_digits h
    simp [dot, is_digit] at this

theorem space_bounds {c : UInt8} (h : 0x30 ≤ c.toNat) : is_space c = false := by
  simp only [is_space, Bool.or_eq_false_iff, Bool.and_eq_false_iff, decide_eq_false_iff_not,
    UInt8.le_iff_toNat_le, ← UInt8.toNat_inj, UInt8.reduceToNat]
  omega

/-- A text that begins with a digit or a letter has no sign to read. -/
theorem strtoll_unsigned {c : UInt8} {s : Text} (h : 0x30 ≤ c.toNat) :
    strtoll (c :: s) = saturated (digits_value ((c :: s).takeWhile is_digit)) := by
  rw [strtoll, List.dropWhile_cons_of_neg (by simp [space_bounds h])]
  split
  · simp_all
  · simp_all
  · rfl

theorem saturated_of_lt {n : Int} (h : 0 ≤ n) (hlt : n < 2 ^ 63) : saturated n = Int64.ofInt n := by
  rw [saturated, if_neg (by omega), if_neg (by omega)]

theorem saturated_nonneg {n : Int} (h : 0 ≤ n) : 0 ≤ saturated n := by
  rw [saturated, if_neg (by omega)]
  split
  · decide
  · rw [Int64.le_iff_toInt_le, Int64.toInt_ofInt_of_le (by omega) (by omega)]
    exact h

theorem strtoll_nonneg {c : UInt8} {s : Text} (h : 0x30 ≤ c.toNat) : 0 ≤ strtoll (c :: s) := by
  rw [strtoll_unsigned h]
  exact saturated_nonneg (by omega)

theorem strtoll_decimal {n : Int64} (h : 0 ≤ n) : strtoll (decimal n) = n := by
  have hneg : ¬n < 0 := Int64.not_lt.mpr h
  have hint : 0 ≤ n.toInt := by simpa [Int64.le_iff_toInt_le] using h
  have hdigits : ∀ c ∈ decimal_digits n.toInt.natAbs, is_digit c = true := fun c => decimal_digits_digits
  have hvalue := digits_value_decimal n.toInt.natAbs
  rw [decimal, if_neg hneg, List.nil_append]
  rcases hds : decimal_digits n.toInt.natAbs with _ | ⟨c, ds⟩
  · exact absurd hds (decimal_digits_nonempty _)
  · rw [hds] at hdigits hvalue
    rw [strtoll_unsigned (digit_bounds.mp (hdigits c (by simp))).1, List.takeWhile_eq_self_iff.mpr hdigits,
      hvalue, Int.natAbs_of_nonneg hint, saturated_of_lt hint n.toInt_lt, Int64.ofInt_toInt]

variable {R : Reginold}

theorem Reginold.Documented.decimal (hR : R.Documented) (n : Int64) :
    R.all_digits (decimal n) = true ↔ 0 ≤ n := by
  rw [hR.all_digits, and_iff_right (decimal_nonempty n)]
  constructor
  · intro h
    by_contra hneg
    have := h 0x2d (by simp [rubygems.decimal, Int64.not_le.mp hneg])
    simp [is_digit] at this
  · intro h c hc
    rw [rubygems.decimal, if_neg (Int64.not_lt.mpr h), List.nil_append] at hc
    exact decimal_digits_digits hc

/-- The segment that a number written out is read back as. -/
def number_segment (n : Int64) : Segment := if 0 ≤ n then .num n else .text (decimal n)

theorem Reginold.Documented.segments_numbers (hR : R.Documented) {ns : List Int64} (hns : ns ≠ []) :
    R.segments (join_dots (ns.map rubygems.decimal)) = ns.map number_segment := by
  rw [Reginold.segments, split_join (by simpa using hns)]
  · rw [List.map_map]
    refine List.map_congr_left fun n _ => ?_
    simp only [Function.comp_apply, hR.decimal, number_segment]
    split
    · rw [strtoll_decimal ‹_›]
    · rfl
  · intro s hs
    obtain ⟨n, _, rfl⟩ := List.mem_map.mp hs
    exact ⟨decimal_nonempty n, decimal_no_dot n⟩

end numbers

section order

variable {R : Reginold}

/-- Gem::Version#segments on one part. -/
def Reginold.segment (R : Reginold) (s : Text) : Segment := if R.all_digits s then .num (strtoll s) else .text s

theorem Reginold.segments_eq (version : Text) : R.segments version = (split_dots version).map R.segment := rfl

theorem Reginold.Documented.segment_text (hR : R.Documented) {s : Text} {c : UInt8} (hc : c ∈ s)
    (hdigit : is_digit c = false) : R.segment s = .text s := by
  rw [Reginold.segment, if_neg]
  intro h
  have := ((hR.all_digits s).mp h).2 c hc
  simp [hdigit] at this

theorem Reginold.Documented.segment_number (hR : R.Documented) {s : Text} (hs : R.all_digits s = true) :
    R.segment s = .num (strtoll s) ∧ 0 ≤ strtoll s := by
  refine ⟨if_pos hs, ?_⟩
  obtain ⟨hne, hdigits⟩ := (hR.all_digits s).mp hs
  obtain ⟨c, s, rfl⟩ := List.exists_cons_of_ne_nil hne
  exact strtoll_nonneg (digit_bounds.mp (hdigits c (by simp))).1

theorem less_iff {m n : Int64} : (Double.of_int m).less (.of_int n) = true ↔ (Double.of_int m).value < (Double.of_int n).value := by
  simp [Double.less, Double.of_int_nan]

@[simp] theorem Segment.cmp_self (x : Segment) : x.cmp x = some 0 := by
  cases x with
  | num n => simp [cmp, sign, Double.less]
  | text s => simp [cmp, sign, List.lt_irrefl]

theorem array_cmp_append (p xs ys : List Segment) : array_cmp (p ++ xs) (p ++ ys) = array_cmp xs ys := by
  induction p with
  | nil => rfl
  | cons x p ih => simp [array_cmp, ih]

theorem array_cmp_self (xs : List Segment) : array_cmp xs xs = some 0 := by
  have h := array_cmp_append xs [] []
  rwa [List.append_nil] at h

/-- A text whose bytes are those of digits and letters, or greater. -/
def High (t : Text) : Prop := ∀ c ∈ t, 0x30 ≤ c.toNat

theorem Part.high {s : Text} (h : Part s) : High s := fun _ hc => (alnum_bounds (h.2 _ hc)).1

/-- What follows a text after a byte below all digits and letters does not count. -/
theorem append_low_lt {l t : Text} (ht : High t) {c : UInt8} (hc : c.toNat < 0x30) (z : Text) :
    l ++ c :: z < t ↔ l < t := by
  induction l generalizing t with
  | nil =>
    cases t with
    | nil => simp
    | cons d t =>
      have : c < d := UInt8.lt_iff_toNat_lt.mpr (Nat.lt_of_lt_of_le hc (ht d (by simp)))
      simp [List.cons_lt_cons_iff, this]
  | cons a l ih =>
    cases t with
    | nil => simp
    | cons d t =>
      have := ih (t := t) fun e he => ht e (by simp [he])
      simp [List.cons_lt_cons_iff, this]

theorem lt_append_low {l t : Text} (ht : High t) {c : UInt8} (hc : c.toNat < 0x30) (z : Text) :
    t < l ++ c :: z ↔ ¬l < t := by
  induction l generalizing t with
  | nil =>
    cases t with
    | nil => simp
    | cons d t =>
      have : c < d := UInt8.lt_iff_toNat_lt.mpr (Nat.lt_of_lt_of_le hc (ht d (by simp)))
      simp [List.cons_lt_cons_iff, UInt8.not_lt.mpr (UInt8.le_of_lt this), (UInt8.ne_of_lt this).symm]
  | cons a l ih =>
    cases t with
    | nil => simp
    | cons d t =>
      have := ih (t := t) fun e he => ht e (by simp [he])
      rw [List.cons_append, List.cons_lt_cons_iff, List.cons_lt_cons_iff, this]
      by_cases h : a < d
      · simp [h, UInt8.not_lt.mpr (UInt8.le_of_lt h), (UInt8.ne_of_lt h).symm]
      · rcases eq_or_ne a d with rfl | hne
        · simp
        · have : d < a := UInt8.lt_of_le_of_ne (UInt8.not_lt.mp h) hne.symm
          simp [h, hne, this]

end order

section instances

/-- The expression of a constraint tried on the operators in their order. Where only
blanks follow the operator, the last of them is what `.+` matches. -/
def match_constraint (req : Text) : Option (Text × Text) :=
  let s := req.dropWhile is_space
  [Operator.eq, .ne, .ge, .le, .gt, .lt, .pessimistic].findSome? fun op =>
    if op.text.isPrefixOf s then
      let rest := s.drop op.text.length
      let v := rest.dropWhile is_space
      let v := if v = [] then rest.drop (rest.length - 1) else v
      if v ≠ [] ∧ 0x0a ∉ v then some (op.text, v) else none
    else none

/-- A matcher that does what is documented. -/
def matcher : Reginold where
  all_digits s := s ≠ [] ∧ s.all is_digit
  any_letter s := s.any is_letter
  constraint := match_constraint

theorem matcher_documented : matcher.Documented where
  all_digits s := by simp [matcher]
  any_letter s := by simp [matcher]
  constraint op c v hspace hnewline := by
    have hblank : bytes_of " " = [0x20] := by decide
    have hdrop : (0x20 :: c :: v).dropWhile is_space = c :: v := by
      rw [List.dropWhile_cons_of_pos (by decide), List.dropWhile_cons_of_neg (by simp [hspace])]
    simp only [matcher, match_constraint, hblank]
    cases op <;> simp [Operator.text, bytes_of, is_space, List.findSome?, hdrop, hnewline]

/-- The version `1.0`. -/
def one_zero : Dotted := ⟨[bytes_of "1", bytes_of "0"], by decide, by decide⟩

/-- The version `2.0`. -/
def two_zero : Dotted := ⟨[bytes_of "2", bytes_of "0"], by decide, by decide⟩

end instances

end stoned.rubygems
