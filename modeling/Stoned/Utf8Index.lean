import Mathlib.Data.List.GetD
import Stoned.Utf8Text

namespace stoned

open codec

/-! Characters and byte offsets of a text (utf8.c). -/

/-- Goes on by whole characters while `goes` says so, from byte `i` with `cur`
characters before it. Where no character can be read it stops. -/
def utf8_walk (goes : Nat → Nat → Bool) (s : List UInt8) (cur i : Nat) : Nat × Nat :=
  if i < s.length ∧ goes cur i = true then
    match _h : utf8_decode_one (s.drop i) with
    | none => (cur, i)
    | some (_, width) => utf8_walk goes s (cur + 1) (i + width)
  else (cur, i)
termination_by s.length - i
decreasing_by
  have hwidth := utf8_decode_one_width _h
  omega

def utf8_char_count (s : List UInt8) : Nat := (utf8_walk (fun _ _ => true) s 0 0).1

def utf8_byte_offset_for_char (s : List UInt8) (char_index : Nat) : Nat :=
  (utf8_walk (fun cur _ => cur < char_index) s 0 0).2

def utf8_char_index_for_byte (s : List UInt8) (byte_offset : Nat) : Nat :=
  let byte_offset := if s.length < byte_offset then s.length else byte_offset
  (utf8_walk (fun _ i => i < byte_offset) s 0 0).1

/-- Where a character stands, its width and its code point, looked for from byte
`i` with `cur` characters before it. -/
def utf8_char_from (s : List UInt8) (index cur i : Nat) : Option (Nat × Nat × UInt32) :=
  if i < s.length then
    match _h : utf8_decode_one (s.drop i) with
    | none => none
    | some (codepoint, width) =>
      if cur = index then some (i, width, codepoint) else utf8_char_from s index (cur + 1) (i + width)
  else none
termination_by s.length - i
decreasing_by
  have hwidth := utf8_decode_one_width _h
  omega

def utf8_char_at (s : List UInt8) (index : Nat) : Option (Nat × Nat × UInt32) := utf8_char_from s index 0 0

/-- Goes back over bytes that continue a character. -/
def utf8_back (s : List UInt8) : Nat → Nat
  | 0 => 0
  | i + 1 => if utf8_continues (s.getD (i + 1) 0) then utf8_back s i else i + 1

def utf8_prev_char_start (s : List UInt8) (stop : Nat) : Nat := if stop = 0 then 0 else utf8_back s (stop - 1)

/-! ### Boundaries -/

/-- The byte offset at which the `k`-th character of a text begins. -/
def boundary (cs : List UInt32) (k : Nat) : Nat := (utf8.text (cs.take k)).length

section boundaries
variable {cs : List UInt32} {k : Nat}

@[simp] theorem boundary_zero (cs : List UInt32) : boundary cs 0 = 0 := rfl

theorem boundary_length (cs : List UInt32) : boundary cs cs.length = (utf8.text cs).length := by
  rw [boundary, List.take_length]

theorem text_append (as bs : List UInt32) : utf8.text (as ++ bs) = utf8.text as ++ utf8.text bs := List.flatMap_append

/-- A text taken apart at a character. -/
theorem text_at (hk : k < cs.length) :
    utf8.text cs = utf8.text (cs.take k) ++ (utf8_encode_one cs[k] ++ utf8.text (cs.drop (k + 1))) := by
  have hsplit : cs.take k ++ cs[k] :: cs.drop (k + 1) = cs := by
    rw [List.getElem_cons_drop, List.take_append_drop]
  exact (congrArg utf8.text hsplit.symm).trans (text_append ..)

theorem drop_boundary (k : Nat) : (utf8.text cs).drop (boundary cs k) = utf8.text (cs.drop k) := by
  have hsplit : utf8.text cs = utf8.text (cs.take k) ++ utf8.text (cs.drop k) := by
    rw [← text_append, List.take_append_drop]
  rw [hsplit, boundary, List.drop_left]

theorem boundary_succ (hk : k < cs.length) : boundary cs (k + 1) = boundary cs k + (utf8_encode_one cs[k]).length := by
  rw [boundary, boundary, List.take_add_one, List.getElem?_eq_getElem hk, text_append, List.length_append]
  simp [utf8]

variable (hcs : ∀ c ∈ cs, UnicodeScalar c)
include hcs

theorem boundary_lt_succ (hk : k < cs.length) : boundary cs k < boundary cs (k + 1) := by
  have hpos := List.length_pos_iff.mpr (utf8_selfDelimiting.encode_ne_nil (hcs cs[k] (List.getElem_mem hk)))
  have hsucc := boundary_succ hk
  change 0 < (utf8_encode_one cs[k]).length at hpos
  omega

theorem boundary_strictMono {j k : Nat} (hjk : j < k) (hk : k ≤ cs.length) : boundary cs j < boundary cs k := by
  induction k with
  | zero => exact absurd hjk (Nat.not_lt_zero j)
  | succ k ih =>
    have hstep := boundary_lt_succ hcs hk
    obtain hlt | rfl := Nat.lt_or_eq_of_le (Nat.le_of_lt_succ hjk)
    · exact (ih hlt (Nat.le_of_lt hk)).trans hstep
    · exact hstep

theorem boundary_lt_length (hk : k < cs.length) : boundary cs k < (utf8.text cs).length := by
  rw [← boundary_length]
  exact boundary_strictMono hcs hk (Nat.le_refl _)

theorem decode_boundary (hk : k < cs.length) :
    utf8_decode_one ((utf8.text cs).drop (boundary cs k)) = some (cs[k], (utf8_encode_one cs[k]).length) := by
  rw [drop_boundary, List.drop_eq_getElem_cons hk, Code.text_cons]
  exact utf8_decode_encode (hcs cs[k] (List.getElem_mem hk)) _

/-! ### The scans -/

/-- A walk goes from boundary to boundary, up to one where it is not to go on. -/
theorem utf8_walk_spec (goes : Nat → Nat → Bool) {j k : Nat} (hjk : j ≤ k) (hk : k ≤ cs.length)
    (hgoes : ∀ i, j ≤ i → i < k → goes i (boundary cs i) = true)
    (hstop : k < cs.length → goes k (boundary cs k) = false) :
    utf8_walk goes (utf8.text cs) j (boundary cs j) = (k, boundary cs k) := by
  induction hjk using Nat.decreasingInduction with
  | self =>
    rw [utf8_walk, if_neg]
    rintro ⟨hlt, hgo⟩
    obtain hless | rfl := Nat.lt_or_eq_of_le hk
    · rw [hstop hless] at hgo
      cases hgo
    · rw [boundary_length] at hlt
      exact Nat.lt_irrefl _ hlt
  | of_succ i hik ih =>
    have hi : i < cs.length := Nat.lt_of_lt_of_le hik hk
    have hdecode := decode_boundary hcs hi
    rw [utf8_walk, if_pos ⟨boundary_lt_length hcs hi, hgoes i (Nat.le_refl i) hik⟩]
    split
    case h_1 hnone =>
      rw [hnone] at hdecode
      cases hdecode
    case h_2 codepoint width hsome =>
      rw [hsome] at hdecode
      cases hdecode
      rw [← boundary_succ hi]
      exact ih fun n hn hnk => hgoes n (Nat.le_of_succ_le hn) hnk

theorem utf8_char_count_spec : utf8_char_count (utf8.text cs) = cs.length := by
  have hwalk := utf8_walk_spec hcs (fun _ _ => true) (Nat.zero_le _) (Nat.le_refl cs.length) (fun _ _ _ => rfl)
    (fun h => absurd h (Nat.lt_irrefl _))
  rw [boundary_zero] at hwalk
  rw [utf8_char_count, hwalk]

theorem utf8_byte_offset_for_char_spec (hk : k ≤ cs.length) :
    utf8_byte_offset_for_char (utf8.text cs) k = boundary cs k := by
  have hwalk := utf8_walk_spec hcs (fun cur _ => decide (cur < k)) (Nat.zero_le k) hk
    (fun i _ hi => decide_eq_true hi) (fun _ => decide_eq_false (Nat.lt_irrefl k))
  rw [boundary_zero] at hwalk
  rw [utf8_byte_offset_for_char, hwalk]

theorem utf8_char_index_for_byte_spec (hk : k ≤ cs.length) :
    utf8_char_index_for_byte (utf8.text cs) (boundary cs k) = k := by
  have hinside : ¬ (utf8.text cs).length < boundary cs k := by
    rw [← boundary_length, Nat.not_lt]
    obtain hlt | rfl := Nat.lt_or_eq_of_le hk
    · exact Nat.le_of_lt (boundary_strictMono hcs hlt (Nat.le_refl _))
    · exact Nat.le_refl _
  have hwalk := utf8_walk_spec hcs (fun _ i => decide (i < boundary cs k)) (Nat.zero_le k) hk
    (fun i _ hi => decide_eq_true (boundary_strictMono hcs hi hk)) (fun _ => decide_eq_false (Nat.lt_irrefl _))
  rw [boundary_zero] at hwalk
  simp only [utf8_char_index_for_byte, if_neg hinside]
  rw [hwalk]

theorem utf8_char_from_spec {index j : Nat} (hj : j ≤ index) (hlength : j ≤ cs.length) :
    utf8_char_from (utf8.text cs) index j (boundary cs j) =
      cs[index]?.map fun c => (boundary cs index, (utf8_encode_one c).length, c) := by
  obtain ⟨n, hn⟩ : ∃ n, cs.length - j = n := ⟨_, rfl⟩
  induction n generalizing j with
  | zero =>
    obtain rfl : j = cs.length := by omega
    rw [utf8_char_from, boundary_length, if_neg (Nat.lt_irrefl _), List.getElem?_eq_none hj]
    rfl
  | succ n ih =>
    have hlt : j < cs.length := by omega
    have hdecode := decode_boundary hcs hlt
    rw [utf8_char_from, if_pos (boundary_lt_length hcs hlt)]
    split
    case h_1 hnone =>
      rw [hnone] at hdecode
      cases hdecode
    case h_2 codepoint width hsome =>
      rw [hsome] at hdecode
      cases hdecode
      split
      case isTrue heq =>
        subst heq
        rw [List.getElem?_eq_getElem hlt]
        rfl
      case isFalse hne =>
        rw [← boundary_succ hlt]
        exact ih (by omega) hlt (by omega)

theorem utf8_char_at_spec (index : Nat) :
    utf8_char_at (utf8.text cs) index = cs[index]?.map fun c => (boundary cs index, (utf8_encode_one c).length, c) :=
  utf8_char_from_spec hcs (Nat.zero_le index) (Nat.zero_le _)

omit hcs in
/-- Going back ends at the byte that all those behind it continue. -/
theorem utf8_back_spec {s : List UInt8} {i n : Nat} (hstart : ¬ utf8_continues (s.getD i 0))
    (hcontinues : ∀ j, i < j → j ≤ i + n → utf8_continues (s.getD j 0)) : utf8_back s (i + n) = i := by
  induction n with
  | zero =>
    cases i with
    | zero => rfl
    | succ i => exact if_neg hstart
  | succ n ih =>
    have hlast := hcontinues (i + n + 1) (by omega) (Nat.le_refl _)
    rw [← Nat.add_assoc, utf8_back, if_pos hlast]
    exact ih fun j hj hjn => hcontinues j hj (Nat.le_succ_of_le hjn)

theorem utf8_prev_char_start_spec (hk : k < cs.length) :
    utf8_prev_char_start (utf8.text cs) (boundary cs (k + 1)) = boundary cs k := by
  obtain ⟨lead, tail, hbytes, hlead, htail, -⟩ := utf8_encode_one_bytes (hcs cs[k] (List.getElem_mem hk))
  have hsucc := boundary_succ hk
  have htext := text_at hk
  rw [hbytes, List.length_cons] at hsucc
  rw [hbytes, List.cons_append] at htext
  -- the bytes from the boundary on
  have hbehind : ∀ n, (utf8.text cs).getD (boundary cs k + n) 0 =
      (lead :: (tail ++ utf8.text (cs.drop (k + 1)))).getD n 0 := by
    intro n
    rw [htext]
    refine (List.getD_append_right (utf8.text (cs.take k)) _ 0 (boundary cs k + n) (Nat.le_add_right _ n)).trans ?_
    exact congrArg (List.getD _ · 0) (Nat.add_sub_cancel_left _ n)
  rw [utf8_prev_char_start, hsucc, if_neg (by omega)]
  refine utf8_back_spec (n := tail.length) ?_ ?_
  · rw [← Nat.add_zero (boundary cs k), hbehind]
    exact hlead
  · intro j hlt hle
    obtain ⟨n, rfl⟩ := Nat.exists_eq_add_of_lt hlt
    have hn : n < tail.length := by omega
    rw [Nat.add_assoc, hbehind, List.getD_cons_succ, List.getD_append _ _ _ _ hn, List.getD_eq_getElem _ _ hn]
    exact htail _ (List.getElem_mem hn)

end boundaries

/-- The conversions between characters and byte offsets of a valid text agree. -/
theorem utf8_index_conversions {s : List UInt8} (h : valid_utf8 s) :
    ∃ cs : List UInt32, (∀ c ∈ cs, UnicodeScalar c) ∧ s = cs.flatMap utf8_encode_one ∧ utf8_char_count s = cs.length ∧
      (∀ k ≤ cs.length, utf8_char_index_for_byte s (utf8_byte_offset_for_char s k) = k) ∧
      (∀ j k, j < k → k ≤ cs.length → utf8_byte_offset_for_char s j < utf8_byte_offset_for_char s k) ∧
      utf8_byte_offset_for_char s cs.length = s.length ∧
      (∀ k < cs.length,
        utf8_prev_char_start s (utf8_byte_offset_for_char s (k + 1)) = utf8_byte_offset_for_char s k) ∧
      ∀ k, utf8_char_at s k =
        cs[k]?.map fun c => (utf8_byte_offset_for_char s k, (utf8_encode_one c).length, c) := by
  obtain ⟨cs, hcs, rfl⟩ := valid_utf8_iff.mp h
  have hoffset {k : Nat} (hk : k ≤ cs.length) := utf8_byte_offset_for_char_spec hcs hk
  refine ⟨cs, hcs, rfl, utf8_char_count_spec hcs, ?_, ?_, ?_, ?_, ?_⟩
  · intro k hk
    exact (congrArg _ (hoffset hk)).trans (utf8_char_index_for_byte_spec hcs hk)
  · intro j k hjk hk
    have hlt := boundary_strictMono hcs hjk hk
    rwa [← hoffset hk, ← hoffset (Nat.le_of_lt (hjk.trans_le hk))] at hlt
  · exact (hoffset (Nat.le_refl _)).trans (boundary_length cs)
  · intro k hk
    have hprev := utf8_prev_char_start_spec hcs hk
    rwa [← hoffset hk, ← hoffset (Nat.le_of_lt hk)] at hprev
  · intro k
    refine (utf8_char_at_spec hcs k).trans ?_
    cases hget : cs[k]? with
    | none => rfl
    | some c =>
      have hk := (List.getElem?_eq_some_iff.mp hget).1
      exact congrArg (fun i => some (i, (utf8_encode_one c).length, c)) (hoffset (Nat.le_of_lt hk)).symm

/-- The conversions in a text of one, two and three bytes a character. -/
theorem utf8_index_conversions_mixed :
    ∃ cs : List UInt32, [0x61, 0xC3, 0xA9, 0xE2, 0x82, 0xAC] = cs.flatMap utf8_encode_one ∧
      utf8_char_count [0x61, 0xC3, 0xA9, 0xE2, 0x82, 0xAC] = cs.length := by
  have hscalar : ∀ c ∈ [0x61, 0xE9, 0x20AC], UnicodeScalar c := by simp [UnicodeScalar]
  obtain ⟨cs, -, htext, hcount, -⟩ := utf8_index_conversions (valid_utf8_iff.mpr ⟨_, hscalar, rfl⟩)
  exact ⟨cs, htext, hcount⟩

end stoned
