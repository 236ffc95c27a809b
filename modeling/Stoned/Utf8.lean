import Stoned.Codec
import Mathlib.Tactic.Common
import Mathlib.Algebra.Group.Nat.Defs

namespace stoned

open codec

/-! UTF-8 (utf8.c). -/

/-- What a first byte says: its bits of the code point and the width of the
character. -/
def utf8_lead (c0 : UInt8) : Option (UInt32 × Nat) :=
  if c0 < 0x80 then some (c0.toUInt32, 1)
  else if 0xC2 ≤ c0 ∧ c0 ≤ 0xDF then some ((c0 &&& 0x1F).toUInt32, 2)
  else if 0xE0 ≤ c0 ∧ c0 ≤ 0xEF then some ((c0 &&& 0x0F).toUInt32, 3)
  else if 0xF0 ≤ c0 ∧ c0 ≤ 0xF4 then some ((c0 &&& 0x07).toUInt32, 4)
  else none

/-- Adds the bits of the bytes behind the first one. -/
def utf8_tail (cp : UInt32) : List UInt8 → Option UInt32
  | [] => some cp
  | cx :: rest => if cx &&& 0xC0 ≠ 0x80 then none else utf8_tail (cp <<< 6 ||| (cx &&& 0x3F).toUInt32) rest

/-- Code points written too long, too large or standing for no character. -/
def utf8_refuses (need : Nat) (cp : UInt32) (c0 c1 : UInt8) : Bool :=
  (need = 2 ∧ cp < 0x80) ∨ (need = 3 ∧ cp < 0x800) ∨ (need = 4 ∧ cp < 0x10000) ∨ 0x10FFFF < cp ∨
    (0xD800 ≤ cp ∧ cp ≤ 0xDFFF) ∨ (need = 3 ∧ c0 = 0xE0 ∧ c1 < 0xA0) ∨ (need = 3 ∧ c0 = 0xED ∧ 0xA0 ≤ c1) ∨
    (need = 4 ∧ c0 = 0xF0 ∧ c1 < 0x90) ∨ (need = 4 ∧ c0 = 0xF4 ∧ 0x90 ≤ c1)

/-- The code point in front of a text and its width. -/
def utf8_decode_one (s : List UInt8) : Option (UInt32 × Nat) := do
  let c0 ← s.head?
  let (lead, need) ← utf8_lead c0
  if s.length < need then none
  else
    let cp ← utf8_tail lead (s.tail.take (need - 1))
    if utf8_refuses need cp c0 (s.tail.headD 0) then none else some (cp, need)

def utf8_encode_one (codepoint : UInt32) : List UInt8 :=
  let tail (shift : UInt32) : UInt8 := (0x80 ||| (codepoint >>> shift &&& 0x3F)).toUInt8
  if codepoint ≤ 0x7F then [codepoint.toUInt8]
  else if codepoint ≤ 0x7FF then [((0xC0 : UInt32) ||| codepoint >>> 6).toUInt8, tail 0]
  else if codepoint ≤ 0xFFFF then [((0xE0 : UInt32) ||| codepoint >>> 12).toUInt8, tail 6, tail 0]
  else [((0xF0 : UInt32) ||| codepoint >>> 18).toUInt8, tail 12, tail 6, tail 0]

def utf8 : Code UInt32 UInt8 := { encode := utf8_encode_one, decode := utf8_decode_one }

/-- The code points of characters. -/
def UnicodeScalar (c : UInt32) : Prop := c ≤ 0x10FFFF ∧ ¬ (0xD800 ≤ c ∧ c ≤ 0xDFFF)

/-! The bits of a byte, in numbers. -/

theorem and_C0_iff (cx : UInt8) : cx &&& 0xC0 = 0x80 ↔ 128 ≤ cx.toNat ∧ cx.toNat < 192 := by
  have hall : ∀ n < 256, n &&& 192 = 128 ↔ 128 ≤ n ∧ n < 192 := by decide +kernel
  rw [← UInt8.toNat_inj, UInt8.toNat_and]
  exact hall cx.toNat cx.toNat_lt

theorem toNat_and_low (c : UInt8) (mask : UInt8) (bits : Nat) (hmask : mask.toNat = 2 ^ bits - 1) :
    (c &&& mask).toUInt32.toNat = c.toNat % 2 ^ bits := by
  rw [UInt8.toNat_toUInt32, UInt8.toNat_and, hmask, Nat.and_two_pow_sub_one_eq_mod]

/-- Six more bits behind those of a code point that has room for them. -/
theorem toNat_more_bits (cp : UInt32) (cx : UInt8) (hroom : cp.toNat < 2 ^ 26) :
    (cp <<< 6 ||| (cx &&& 0x3F).toUInt32).toNat = cp.toNat * 64 + cx.toNat % 64 := by
  rw [UInt32.toNat_or, toNat_and_low cx 0x3F 6 rfl, UInt32.toNat_shiftLeft]
  have hshift : cp.toNat <<< (UInt32.toNat 6 % 32) % 2 ^ 32 = 64 * cp.toNat := by
    rw [Nat.shiftLeft_eq]
    simp only [UInt32.reduceToNat, Nat.reduceMod, Nat.reducePow]
    omega
  rw [hshift, ← Nat.two_pow_add_eq_or_of_lt (i := 6) (Nat.mod_lt _ (by decide)) cp.toNat]
  omega

/-- A lead byte with its marker in front of `bits` bits. -/
theorem toNat_marked (marker c : UInt32) (bits high : Nat) (hmarker : marker.toNat = 2 ^ bits * high)
    (hlow : c.toNat < 2 ^ bits) (hbyte : 2 ^ bits * high + 2 ^ bits ≤ 256) :
    (marker ||| c).toUInt8.toNat = marker.toNat + c.toNat := by
  rw [UInt32.toNat_toUInt8, UInt32.toNat_or, hmarker, ← Nat.two_pow_add_eq_or_of_lt hlow]
  omega

theorem utf8_refuses_iff (need : Nat) (cp : UInt32) (c0 c1 : UInt8) :
    utf8_refuses need cp c0 c1 = true ↔
      (need = 2 ∧ cp.toNat < 0x80) ∨ (need = 3 ∧ cp.toNat < 0x800) ∨ (need = 4 ∧ cp.toNat < 0x10000) ∨
        0x10FFFF < cp.toNat ∨ (0xD800 ≤ cp.toNat ∧ cp.toNat ≤ 0xDFFF) ∨
        (need = 3 ∧ c0.toNat = 0xE0 ∧ c1.toNat < 0xA0) ∨ (need = 3 ∧ c0.toNat = 0xED ∧ 0xA0 ≤ c1.toNat) ∨
        (need = 4 ∧ c0.toNat = 0xF0 ∧ c1.toNat < 0x90) ∨ (need = 4 ∧ c0.toNat = 0xF4 ∧ 0x90 ≤ c1.toNat) := by
  simp only [utf8_refuses, decide_eq_true_eq, UInt32.lt_iff_toNat_lt, UInt32.le_iff_toNat_le, UInt8.lt_iff_toNat_lt,
    UInt8.le_iff_toNat_le, ← UInt8.toNat_inj, UInt32.reduceToNat, UInt8.reduceToNat]

theorem utf8_lead_eq (c0 : UInt8) :
    utf8_lead c0 =
      if c0.toNat < 128 then some (c0.toUInt32, 1)
      else if 194 ≤ c0.toNat ∧ c0.toNat ≤ 223 then some ((c0 &&& 0x1F).toUInt32, 2)
      else if 224 ≤ c0.toNat ∧ c0.toNat ≤ 239 then some ((c0 &&& 0x0F).toUInt32, 3)
      else if 240 ≤ c0.toNat ∧ c0.toNat ≤ 244 then some ((c0 &&& 0x07).toUInt32, 4)
      else none := by
  simp only [utf8_lead, UInt8.lt_iff_toNat_lt, UInt8.le_iff_toNat_le, UInt8.reduceToNat]

theorem utf8_tail_cons (cp : UInt32) (cx : UInt8) (rest : List UInt8) :
    utf8_tail cp (cx :: rest) =
      if 128 ≤ cx.toNat ∧ cx.toNat < 192 then utf8_tail (cp <<< 6 ||| (cx &&& 0x3F).toUInt32) rest else none := by
  rw [utf8_tail, ite_not]
  simp only [and_C0_iff]

/-- The bytes of a code point, in numbers. -/
theorem toNat_utf8_encode_one {c : UInt32} (hc : c.toNat ≤ 0x10FFFF) :
    (utf8_encode_one c).map UInt8.toNat =
      if c.toNat ≤ 0x7F then [c.toNat]
      else if c.toNat ≤ 0x7FF then [192 + c.toNat / 64, 128 + c.toNat % 64]
      else if c.toNat ≤ 0xFFFF then [224 + c.toNat / 4096, 128 + c.toNat / 64 % 64, 128 + c.toNat % 64]
      else [240 + c.toNat / 262144, 128 + c.toNat / 4096 % 64, 128 + c.toNat / 64 % 64, 128 + c.toNat % 64] := by
  have htail : ∀ (shift : UInt32) (n : Nat), (c >>> shift).toNat = n →
      ((0x80 : UInt32) ||| (c >>> shift &&& 0x3F)).toUInt8.toNat = 128 + n % 64 := by
    intro shift n hn
    have hlow : (c >>> shift &&& 0x3F).toNat = n % 64 := by
      rw [UInt32.toNat_and, hn]
      exact Nat.and_two_pow_sub_one_eq_mod n 6
    have hlt : n % 64 < 64 := Nat.mod_lt n (by decide)
    rw [toNat_marked 0x80 _ 7 1 rfl (by rw [hlow]; omega) (by decide), hlow]
    rfl
  have hshift : ∀ shift : UInt32, shift.toNat < 32 → (c >>> shift).toNat = c.toNat / 2 ^ shift.toNat := by
    intro shift hlt
    rw [UInt32.toNat_shiftRight, Nat.mod_eq_of_lt hlt, Nat.shiftRight_eq_div_pow]
  have h0 := htail 0 _ (hshift 0 (by decide))
  have h6 := htail 6 _ (hshift 6 (by decide))
  have h12 := htail 12 _ (hshift 12 (by decide))
  have hs6 := hshift 6 (by decide)
  have hs12 := hshift 12 (by decide)
  have hs18 := hshift 18 (by decide)
  simp only [UInt32.reduceToNat, Nat.reducePow, Nat.div_one] at h0 h6 h12 hs6 hs12 hs18
  simp only [utf8_encode_one, UInt32.le_iff_toNat_le, UInt32.reduceToNat]
  split
  case isTrue h1 =>
    rw [List.map_singleton, UInt32.toNat_toUInt8, Nat.mod_eq_of_lt (by omega)]
  case isFalse h1 =>
    split
    case isTrue h2 =>
      simp only [List.map_cons, List.map_nil, h0]
      rw [toNat_marked 0xC0 _ 6 3 rfl (by rw [hs6]; omega) (by decide), hs6]
      rfl
    case isFalse h2 =>
      split
      case isTrue h3 =>
        simp only [List.map_cons, List.map_nil, h0, h6]
        rw [toNat_marked 0xE0 _ 5 7 rfl (by rw [hs12]; omega) (by decide), hs12]
        rfl
      case isFalse h3 =>
        simp only [List.map_cons, List.map_nil, h0, h6, h12]
        rw [toNat_marked 0xF0 _ 4 15 rfl (by rw [hs18]; omega) (by decide), hs18]
        rfl

theorem utf8_decode_one_eq_some_iff {c0 : UInt8} {rest : List UInt8} {cp : UInt32} {width : Nat} :
    utf8_decode_one (c0 :: rest) = some (cp, width) ↔
      ∃ lead, utf8_lead c0 = some (lead, width) ∧ width ≤ rest.length + 1 ∧
        utf8_tail lead (rest.take (width - 1)) = some cp ∧ utf8_refuses width cp c0 (rest.headD 0) = false := by
  constructor
  · intro h
    obtain ⟨⟨lead, need⟩, hlead, h⟩ := Option.bind_eq_some_iff.mp h
    obtain ⟨hlength, h⟩ := Option.ite_none_left_eq_some.mp h
    obtain ⟨code, htail, h⟩ := Option.bind_eq_some_iff.mp h
    obtain ⟨hrefuses, h⟩ := Option.ite_none_left_eq_some.mp h
    obtain ⟨rfl, rfl⟩ := Prod.mk.inj (Option.some.inj h)
    exact ⟨lead, hlead, Nat.not_lt.mp hlength, htail, Bool.not_eq_true _ ▸ hrefuses⟩
  · rintro ⟨lead, hlead, hlength, htail, hrefuses⟩
    refine Option.bind_eq_some_iff.mpr ⟨(lead, width), hlead, ?_⟩
    refine Option.ite_none_left_eq_some.mpr ⟨Nat.not_lt.mpr hlength, Option.bind_eq_some_iff.mpr ⟨cp, htail, ?_⟩⟩
    exact Option.ite_none_left_eq_some.mpr ⟨ne_true_of_eq_false hrefuses, rfl⟩

/-- A byte that is added is one of 0x80 to 0xBF. -/
theorem utf8_tail_cons_eq_some {cp out : UInt32} {cx : UInt8} {rest : List UInt8} (hroom : cp.toNat < 2 ^ 26)
    (h : utf8_tail cp (cx :: rest) = some out) :
    (128 ≤ cx.toNat ∧ cx.toNat < 192) ∧
      ∃ next, next.toNat = cp.toNat * 64 + (cx.toNat - 128) ∧ utf8_tail next rest = some out := by
  rw [utf8_tail_cons, Option.ite_none_right_eq_some] at h
  obtain ⟨hcx, hrest⟩ := h
  refine ⟨hcx, _, ?_, hrest⟩
  rw [toNat_more_bits _ _ hroom]
  omega

theorem utf8_tail_nil_eq_some {cp out : UInt32} (h : utf8_tail cp [] = some out) : out.toNat = cp.toNat :=
  congrArg UInt32.toNat (Option.some.inj h).symm

theorem eq_of_map_toNat {s t : List UInt8} (h : s.map UInt8.toNat = t.map UInt8.toNat) : s = t :=
  (List.map_injective_iff.mpr fun _ _ => UInt8.toNat_inj.mp) h

/-- The bytes read are those the code point read is written as. -/
theorem utf8_take_of_decode {s : List UInt8} {cp : UInt32} {width : Nat} (h : utf8_decode_one s = some (cp, width)) :
    UnicodeScalar cp ∧ s.take width = utf8_encode_one cp := by
  obtain _ | ⟨c0, rest⟩ := s
  · cases h
  obtain ⟨lead, hlead, hlength, htail, hrefuses⟩ := utf8_decode_one_eq_some_iff.mp h
  have hbyte := c0.toNat_lt
  have hnot := (utf8_refuses_iff width cp c0 (rest.headD 0)).not.mp (Bool.eq_false_iff.mp hrefuses)
  simp only [not_or] at hnot
  obtain ⟨htwo, hthree, hfour, hmax, hsurrogate, -⟩ := hnot
  have hmax : cp.toNat ≤ 0x10FFFF := Nat.not_lt.mp hmax
  have hscalar : UnicodeScalar cp := by
    simp only [UnicodeScalar, UInt32.le_iff_toNat_le, UInt32.reduceToNat]
    omega
  refine ⟨hscalar, eq_of_map_toNat ?_⟩
  rw [toNat_utf8_encode_one hmax]
  rw [utf8_lead_eq] at hlead
  split at hlead
  case isTrue h1 =>
    obtain ⟨rfl, rfl⟩ := Prod.mk.inj (Option.some.inj hlead)
    have hcp := utf8_tail_nil_eq_some htail
    rw [UInt8.toNat_toUInt32] at hcp
    rw [if_pos (by omega), hcp]
    rfl
  case isFalse h1 =>
  split at hlead
  case isTrue h2 =>
    obtain ⟨rfl, rfl⟩ := Prod.mk.inj (Option.some.inj hlead)
    have hlow := toNat_and_low c0 0x1F 5 rfl
    obtain _ | ⟨c1, rest⟩ := rest
    · exact absurd hlength (by decide)
    obtain ⟨hc1, cp1, hcp1, htail⟩ := utf8_tail_cons_eq_some (by omega) htail
    have hcp := utf8_tail_nil_eq_some htail
    rw [if_neg (by omega), if_pos (by omega)]
    simp only [List.take_succ_cons, List.take_zero, List.map_cons, List.map_nil, List.cons.injEq, and_true]
    omega
  case isFalse h2 =>
  split at hlead
  case isTrue h3 =>
    obtain ⟨rfl, rfl⟩ := Prod.mk.inj (Option.some.inj hlead)
    have hlow := toNat_and_low c0 0x0F 4 rfl
    obtain _ | ⟨c1, _ | ⟨c2, rest⟩⟩ := rest
    · exact absurd hlength (by decide)
    · exact absurd hlength (by simp)
    obtain ⟨hc1, cp1, hcp1, htail⟩ := utf8_tail_cons_eq_some (by omega) htail
    obtain ⟨hc2, cp2, hcp2, htail⟩ := utf8_tail_cons_eq_some (by omega) htail
    have hcp := utf8_tail_nil_eq_some htail
    rw [if_neg (by omega), if_neg (by omega), if_pos (by omega)]
    simp only [List.take_succ_cons, List.take_zero, List.map_cons, List.map_nil, List.cons.injEq, and_true]
    omega
  case isFalse h3 =>
  split at hlead
  case isTrue h4 =>
    obtain ⟨rfl, rfl⟩ := Prod.mk.inj (Option.some.inj hlead)
    have hlow := toNat_and_low c0 0x07 3 rfl
    obtain _ | ⟨c1, _ | ⟨c2, _ | ⟨c3, rest⟩⟩⟩ := rest
    · exact absurd hlength (by decide)
    · exact absurd hlength (by simp)
    · exact absurd hlength (by simp)
    obtain ⟨hc1, cp1, hcp1, htail⟩ := utf8_tail_cons_eq_some (by omega) htail
    obtain ⟨hc2, cp2, hcp2, htail⟩ := utf8_tail_cons_eq_some (by omega) htail
    obtain ⟨hc3, cp3, hcp3, htail⟩ := utf8_tail_cons_eq_some (by omega) htail
    have hcp := utf8_tail_nil_eq_some htail
    rw [if_neg (by omega), if_neg (by omega), if_neg (by omega)]
    simp only [List.take_succ_cons, List.take_zero, List.map_cons, List.map_nil, List.cons.injEq, and_true]
    omega
  case isFalse h4 => cases hlead

/-- A byte of 0x80 to 0xBF is added. -/
theorem utf8_tail_adds (cp : UInt32) (cx : UInt8) (hroom : cp.toNat < 2 ^ 26) (hcx : 128 ≤ cx.toNat ∧ cx.toNat < 192)
    (rest : List UInt8) :
    ∃ next, next.toNat = cp.toNat * 64 + (cx.toNat - 128) ∧ utf8_tail cp (cx :: rest) = utf8_tail next rest := by
  refine ⟨_, ?_, (utf8_tail_cons cp cx rest).trans (if_pos hcx)⟩
  rw [toNat_more_bits _ _ hroom]
  omega

theorem utf8_tail_done {cp out : UInt32} (h : cp.toNat = out.toNat) : utf8_tail cp [] = some out :=
  congrArg some (UInt32.toNat_inj.mp h)

/-- A character in front of a text is read. -/
theorem utf8_decode_encode {c : UInt32} (hc : UnicodeScalar c) (rest : List UInt8) :
    utf8_decode_one (utf8_encode_one c ++ rest) = some (c, (utf8_encode_one c).length) := by
  simp only [UnicodeScalar, UInt32.le_iff_toNat_le, UInt32.reduceToNat] at hc
  obtain ⟨hmax, hsurrogate⟩ := hc
  have hbytes := toNat_utf8_encode_one hmax
  generalize utf8_encode_one c = bytes at hbytes
  split at hbytes
  case isTrue h1 =>
    obtain ⟨c0, _, rfl, hc0, hnil⟩ := List.map_eq_cons_iff.mp hbytes
    obtain rfl := List.map_eq_nil_iff.mp hnil
    refine utf8_decode_one_eq_some_iff.mpr ⟨c0.toUInt32, ?_, by simp, utf8_tail_done hc0, ?_⟩
    · rw [utf8_lead_eq, if_pos (by omega)]
      rfl
    · rw [Bool.eq_false_iff, Ne, utf8_refuses_iff, List.length_singleton]
      omega
  case isFalse h1 =>
  split at hbytes
  case isTrue h2 =>
    obtain ⟨c0, _, rfl, hc0, hbytes⟩ := List.map_eq_cons_iff.mp hbytes
    obtain ⟨c1, _, rfl, hc1, hnil⟩ := List.map_eq_cons_iff.mp hbytes
    obtain rfl := List.map_eq_nil_iff.mp hnil
    have hlow := toNat_and_low c0 0x1F 5 rfl
    obtain ⟨cp1, hcp1, htail⟩ := utf8_tail_adds (c0 &&& 0x1F).toUInt32 c1 (by omega) (by omega) []
    refine utf8_decode_one_eq_some_iff.mpr ⟨_, ?_, by simp, htail.trans (utf8_tail_done (by omega)), ?_⟩
    · rw [utf8_lead_eq, if_neg (by omega), if_pos (by omega)]
      rfl
    · rw [Bool.eq_false_iff, Ne, utf8_refuses_iff]
      simp only [List.length_cons, List.length_nil]
      omega
  case isFalse h2 =>
  split at hbytes
  case isTrue h3 =>
    obtain ⟨c0, _, rfl, hc0, hbytes⟩ := List.map_eq_cons_iff.mp hbytes
    obtain ⟨c1, _, rfl, hc1, hbytes⟩ := List.map_eq_cons_iff.mp hbytes
    obtain ⟨c2, _, rfl, hc2, hnil⟩ := List.map_eq_cons_iff.mp hbytes
    obtain rfl := List.map_eq_nil_iff.mp hnil
    have hlow := toNat_and_low c0 0x0F 4 rfl
    obtain ⟨cp1, hcp1, htail1⟩ := utf8_tail_adds (c0 &&& 0x0F).toUInt32 c1 (by omega) (by omega) [c2]
    obtain ⟨cp2, hcp2, htail2⟩ := utf8_tail_adds cp1 c2 (by omega) (by omega) []
    refine utf8_decode_one_eq_some_iff.mpr
      ⟨_, ?_, by simp, htail1.trans (htail2.trans (utf8_tail_done (by omega))), ?_⟩
    · rw [utf8_lead_eq, if_neg (by omega), if_neg (by omega), if_pos (by omega)]
      rfl
    · rw [Bool.eq_false_iff, Ne, utf8_refuses_iff]
      have hsecond : ([c1, c2].append rest).headD 0 = c1 := rfl
      rw [hsecond]
      simp only [List.length_cons, List.length_nil]
      omega
  case isFalse h3 =>
    obtain ⟨c0, _, rfl, hc0, hbytes⟩ := List.map_eq_cons_iff.mp hbytes
    obtain ⟨c1, _, rfl, hc1, hbytes⟩ := List.map_eq_cons_iff.mp hbytes
    obtain ⟨c2, _, rfl, hc2, hbytes⟩ := List.map_eq_cons_iff.mp hbytes
    obtain ⟨c3, _, rfl, hc3, hnil⟩ := List.map_eq_cons_iff.mp hbytes
    obtain rfl := List.map_eq_nil_iff.mp hnil
    have hlow := toNat_and_low c0 0x07 3 rfl
    obtain ⟨cp1, hcp1, htail1⟩ := utf8_tail_adds (c0 &&& 0x07).toUInt32 c1 (by omega) (by omega) [c2, c3]
    obtain ⟨cp2, hcp2, htail2⟩ := utf8_tail_adds cp1 c2 (by omega) (by omega) [c3]
    obtain ⟨cp3, hcp3, htail3⟩ := utf8_tail_adds cp2 c3 (by omega) (by omega) []
    refine utf8_decode_one_eq_some_iff.mpr
      ⟨_, ?_, by simp, htail1.trans (htail2.trans (htail3.trans (utf8_tail_done (by omega)))), ?_⟩
    · rw [utf8_lead_eq, if_neg (by omega), if_neg (by omega), if_neg (by omega), if_pos (by omega)]
      rfl
    · rw [Bool.eq_false_iff, Ne, utf8_refuses_iff]
      have hsecond : ([c1, c2, c3].append rest).headD 0 = c1 := rfl
      rw [hsecond]
      simp only [List.length_cons, List.length_nil]
      omega

theorem utf8_selfDelimiting : utf8.SelfDelimiting UnicodeScalar where
  decode_encode rest hc := utf8_decode_encode hc rest
  valid_of_decode h := (utf8_take_of_decode h).1
  take_of_decode h := (utf8_take_of_decode h).2
  decode_nil := rfl

theorem utf8_decode_one_width {s : List UInt8} {cp : UInt32} {width : Nat} (h : utf8_decode_one s = some (cp, width)) :
    0 < width := by
  rw [utf8_selfDelimiting.length_of_decode h]
  exact List.length_pos_iff.mpr (utf8_selfDelimiting.encode_ne_nil (utf8_selfDelimiting.valid_of_decode h))

/-- The loop of utf8_validate at an offset: the offset of the first byte that is
part of no character, if there is one. -/
def utf8_validate_at (offset : Nat) (s : List UInt8) : Option Nat :=
  if s = [] then none
  else
    match _h : utf8_decode_one s with
    | none => some offset
    | some (_, width) => utf8_validate_at (offset + width) (s.drop width)
termination_by s.length
decreasing_by
  have hwidth := utf8_decode_one_width _h
  have hlength := List.length_pos_iff.mpr ‹¬ s = []›
  rw [List.length_drop]
  omega

/-- Nothing if the text is valid, or else `error_offset`. -/
def utf8_validate (s : List UInt8) : Option Nat := utf8_validate_at 0 s

theorem utf8_validate_at_spec (offset : Nat) (s : List UInt8) :
    ∃ symbols rest, utf8.Reads s symbols rest ∧ utf8_decode_one rest = none ∧
      utf8_validate_at offset s = if rest = [] then none else some (offset + (utf8.text symbols).length) := by
  induction offset, s using utf8_validate_at.induct with
  | case1 offset => exact ⟨[], [], .done [], rfl, by simp [utf8_validate_at]⟩
  | case2 offset s hne hstuck =>
    refine ⟨[], s, .done s, hstuck, ?_⟩
    rw [utf8_validate_at, if_neg hne, if_neg hne]
    split
    · rfl
    · next h => cases hstuck.symm.trans h
  | case3 offset s hne cp width hdecode ih =>
    obtain ⟨symbols, rest, hreads, hstuck, hvalidate⟩ := ih
    refine ⟨cp :: symbols, rest, .word hdecode hreads, hstuck, ?_⟩
    rw [utf8_validate_at, if_neg hne]
    split
    · next h => cases h.symm.trans hdecode
    · next c w h =>
      obtain ⟨rfl, rfl⟩ := Prod.mk.inj (Option.some.inj (hdecode.symm.trans h))
      rw [hvalidate, Code.text_cons, List.length_append, Nat.add_assoc,
        utf8_selfDelimiting.length_of_decode hdecode]

/-- A text is valid exactly when it is written with characters, which are then
those that are read one by one; otherwise the offset is where the longest part
written so ends. -/
theorem utf8_validate_spec (s : List UInt8) :
    (utf8_validate s = none ↔ ∃ cs : List UInt32, (∀ c ∈ cs, UnicodeScalar c) ∧ s = cs.flatMap utf8_encode_one) ∧
    (∀ cs : List UInt32, (∀ c ∈ cs, UnicodeScalar c) → s = cs.flatMap utf8_encode_one →
      utf8.Reads s cs [] ∧
        ∀ ds : List UInt32, (∀ d ∈ ds, UnicodeScalar d) → s = ds.flatMap utf8_encode_one → ds = cs) ∧
    ∀ error_offset, utf8_validate s = some error_offset →
      (∃ cs : List UInt32, (∀ c ∈ cs, UnicodeScalar c) ∧ cs.flatMap utf8_encode_one <+: s ∧
          (cs.flatMap utf8_encode_one).length = error_offset) ∧
        ∀ cs : List UInt32, (∀ c ∈ cs, UnicodeScalar c) → cs.flatMap utf8_encode_one <+: s →
          (cs.flatMap utf8_encode_one).length ≤ error_offset := by
  obtain ⟨symbols, rest, hreads, hstuck, hvalidate⟩ := utf8_validate_at_spec 0 s
  have hcode := utf8_selfDelimiting
  obtain ⟨hvalid, htext⟩ := hcode.reads_iff.mp hreads
  rw [Nat.zero_add] at hvalidate
  refine ⟨⟨?_, ?_⟩, ?_, ?_⟩
  · intro hnone
    have hrest : rest = [] := by
      by_contra hne
      rw [utf8_validate, hvalidate, if_neg hne] at hnone
      cases hnone
    exact ⟨symbols, hvalid, by rw [htext, hrest, List.append_nil]; rfl⟩
  · rintro ⟨cs, hcs, rfl⟩
    have hlonger := hcode.prefix_of_reads hreads hstuck hcs List.prefix_rfl
    obtain ⟨more, rfl⟩ := hlonger
    have hrest : rest = [] := by
      have hlength := congrArg List.length htext
      simp only [Code.text, List.flatMap_append, List.length_append] at hlength
      have hutf8 : utf8.encode = utf8_encode_one := rfl
      rw [hutf8] at hlength
      exact List.length_eq_zero_iff.mp (by omega)
    rw [utf8_validate, hvalidate, if_pos hrest]
  · intro cs hcs hs
    refine ⟨hcode.reads_iff.mpr ⟨hcs, by rw [hs, List.append_nil]; rfl⟩, ?_⟩
    intro ds hds hsd
    exact hcode.text_injective hds hcs (hsd.symm.trans hs)
  · intro error_offset herror
    rw [utf8_validate, hvalidate, Option.ite_none_left_eq_some, Option.some.injEq] at herror
    obtain ⟨_, rfl⟩ := herror
    refine ⟨⟨symbols, hvalid, ⟨rest, htext.symm⟩, rfl⟩, ?_⟩
    intro cs hcs hfront
    obtain ⟨more, rfl⟩ := hcode.prefix_of_reads hreads hstuck hcs hfront
    simp only [Code.text, List.flatMap_append, List.length_append]
    exact Nat.le_add_right _ _

end stoned
