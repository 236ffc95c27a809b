import Stoned.Program.Printf
import Mathlib.Data.Nat.Digits.Lemmas

namespace stoned.program.printf

/-! Numerals: texts of digits and the numbers they stand for. -/

/-- A text that is read as a number in a base and has no superfluous zero. -/
def Numeral (base n : Nat) (s : List UInt8) : Prop :=
  ∃ ds : List Nat, s = ds.map (digit false) ∧ (∀ d ∈ ds, d < base) ∧ Nat.ofDigits base ds.reverse = n ∧
    ds ≠ [] ∧ (ds.head? = some 0 → ds = [0])

theorem digits_zero (base : Nat) : digits base false 1 0 = [0x30] := by simp [digits]

theorem digits_pos {base n : Nat} (hn : n ≠ 0) :
    digits base false 1 n = (Nat.digits base n).reverse.map (digit false) := by
  have hne : Nat.digits base n ≠ [] := Nat.digits_ne_nil_iff_ne_zero.mpr hn
  have hlength : 1 ≤ (Nat.digits base n).length := List.length_pos_iff.mpr hne
  have hpad : 1 - ((Nat.digits base n).reverse.map (digit false)).length = 0 := by
    rw [List.length_map, List.length_reverse]
    omega
  rw [digits, hpad]
  rfl

/-- printf writes numerals. -/
theorem numeral_digits {base : Nat} (hbase : 2 ≤ base) (n : Nat) : Numeral base n (digits base false 1 n) := by
  by_cases hn : n = 0
  · subst hn
    refine ⟨[0], digits_zero base, ?_, ?_, List.cons_ne_nil _ _, fun _ => rfl⟩
    · intro d hd
      rw [List.mem_singleton.mp hd]
      omega
    · simp
  · refine ⟨(Nat.digits base n).reverse, digits_pos hn, ?_, ?_, ?_, ?_⟩
    · exact fun d hd => Nat.digits_lt_base hbase (List.mem_reverse.mp hd)
    · rw [List.reverse_reverse, Nat.ofDigits_digits]
    · rw [ne_eq, List.reverse_eq_nil_iff]
      exact Nat.digits_ne_nil_iff_ne_zero.mpr hn
    · intro hzero
      rw [List.head?_reverse] at hzero
      have hne : Nat.digits base n ≠ [] := Nat.digits_ne_nil_iff_ne_zero.mpr hn
      rw [List.getLast?_eq_getLast_of_ne_nil hne] at hzero
      exact absurd (Option.some.inj hzero) (Nat.getLast_digit_ne_zero base hn)

/-- A number other than 0 does not begin with a zero. -/
theorem digits_head {base : Nat} (hbase : 2 ≤ base) (hle : base ≤ 16) {n : Nat} (hn : n ≠ 0) :
    (digits base false 1 n).head? ≠ some 0x30 := by
  obtain ⟨ds, hdigits, hds, hvalue, -, hzero⟩ := numeral_digits hbase n
  rw [hdigits]
  intro hhead
  cases hcase : ds with
  | nil =>
    rw [hcase] at hhead
    cases hhead
  | cons d more =>
    have hlt : d < 16 := Nat.lt_of_lt_of_le (hds d (hcase ▸ List.mem_cons_self)) hle
    have hdigit : ∀ d < 16, digit false d = 0x30 → d = 0 := by decide
    rw [hcase] at hhead hzero
    have hd : d = 0 := hdigit d hlt (Option.some.inj hhead)
    have hsingle := hzero (congrArg some hd)
    rw [hcase, hsingle] at hvalue
    exact hn (hvalue.symm.trans (by simp))

/-- No numeral of a number has fewer digits. -/
theorem Numeral.length_le {base n : Nat} (hbase : 2 ≤ base) {s : List UInt8} (h : Numeral base n s) :
    (digits base false 1 n).length ≤ s.length := by
  obtain ⟨ds, rfl, hds, hvalue, hne, -⟩ := h
  have hlength : 1 ≤ ds.length := List.length_pos_iff.mpr hne
  rw [List.length_map]
  by_cases hn : n = 0
  · rw [hn, digits_zero]
    exact hlength
  · rw [digits_pos hn, List.length_map, List.length_reverse, Nat.digits_length_le_iff hbase, ← hvalue,
      ← List.length_reverse]
    exact Nat.ofDigits_lt_base_pow_length hbase fun d hd => hds d (List.mem_reverse.mp hd)

/-- A text with padding: blanks behind it, zeros behind its prefix, or blanks in
front. -/
def padded (minus zeros : Bool) (size : Nat) (front written : List UInt8) : List UInt8 :=
  let pad := size - (front.length + written.length)
  if minus then front ++ written ++ List.replicate pad 0x20
  else if zeros then front ++ List.replicate pad 0x30 ++ written
  else List.replicate pad 0x20 ++ front ++ written

theorem length_padded (minus zeros : Bool) (size : Nat) (front written : List UInt8) :
    (padded minus zeros size front written).length = max size (front.length + written.length) := by
  unfold padded
  dsimp only
  split
  · simp only [List.length_append, List.length_replicate]
    omega
  · split
    · simp only [List.length_append, List.length_replicate]
      omega
    · simp only [List.length_append, List.length_replicate]
      omega

/-- Without padding the flags make no difference. -/
theorem padded_of_le {size : Nat} {front written : List UInt8} (h : size ≤ front.length + written.length)
    (minus zeros : Bool) : padded minus zeros size front written = front ++ written := by
  have hpad : size - (front.length + written.length) = 0 := by omega
  unfold padded
  rw [hpad]
  cases minus <;> cases zeros <;> simp

theorem pad_number_eq (c : Conversion) (front written : List UInt8) :
    c.pad_number true front written = padded c.minus c.zero c.width front written := by
  unfold Conversion.pad_number Conversion.pad padded
  cases c.minus <;> cases c.zero <;> simp [List.append_assoc]

/-- A zero in front of zeros can stand behind them. -/
theorem padded_zero (minus zeros : Bool) (size : Nat) (written : List UInt8) :
    padded minus zeros size [] (0x30 :: written) = padded minus zeros size [0x30] written := by
  have hlength : ([] : List UInt8).length + (0x30 :: written).length = [(0x30 : UInt8)].length + written.length := by
    simp only [List.length_cons, List.length_nil]
    omega
  unfold padded
  rw [hlength]
  generalize size - ([(0x30 : UInt8)].length + written.length) = pad
  cases minus <;> cases zeros
  · simp
  · have hzeros : List.replicate pad (0x30 : UInt8) ++ 0x30 :: written = 0x30 :: (List.replicate pad 0x30 ++ written) := by
      rw [← List.cons_append, ← List.replicate_succ, List.replicate_succ', List.append_assoc]
      rfl
    simpa using hzeros
  · simp
  · simp

end stoned.program.printf
