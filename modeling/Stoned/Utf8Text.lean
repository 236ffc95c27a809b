import Stoned.Utf8

namespace stoned

open codec

/-! Texts in UTF-8, put together and taken apart. -/

def valid_utf8 (s : List UInt8) : Prop := utf8_validate s = none

/-- A byte behind the first one of a character. -/
def utf8_continues (b : UInt8) : Prop := b &&& 0xC0 = 0x80

instance (b : UInt8) : Decidable (utf8_continues b) := inferInstanceAs (Decidable (b &&& 0xC0 = 0x80))

theorem valid_utf8_iff {s : List UInt8} :
    valid_utf8 s ↔ ∃ cs : List UInt32, (∀ c ∈ cs, UnicodeScalar c) ∧ s = cs.flatMap utf8_encode_one :=
  (utf8_validate_spec s).1

theorem valid_utf8_nil : valid_utf8 [] := valid_utf8_iff.mpr ⟨[], by simp, rfl⟩

theorem utf8_continues_iff {b : UInt8} : utf8_continues b ↔ 128 ≤ b.toNat ∧ b.toNat < 192 := and_C0_iff b

theorem not_continues_of_ascii {b : UInt8} (h : b < 0x80) : ¬ utf8_continues b := by
  have hlt : b.toNat < 128 := UInt8.lt_iff_toNat_lt.mp h
  rw [utf8_continues_iff]
  omega

/-- The bytes of a character: one of ASCII, or a first one beyond and those that
continue it. -/
theorem utf8_encode_one_bytes {c : UInt32} (hc : UnicodeScalar c) :
    ∃ lead tail, utf8_encode_one c = lead :: tail ∧ ¬ utf8_continues lead ∧ (∀ b ∈ tail, utf8_continues b) ∧
      (tail = [] ∧ lead < 0x80 ∨ tail ≠ [] ∧ 0x80 ≤ lead) := by
  simp only [UnicodeScalar, UInt32.le_iff_toNat_le, UInt32.reduceToNat] at hc
  have hbytes := toNat_utf8_encode_one hc.1
  generalize utf8_encode_one c = bytes at hbytes
  simp only [utf8_continues_iff, UInt8.lt_iff_toNat_lt, UInt8.le_iff_toNat_le, UInt8.reduceToNat]
  split at hbytes
  case isTrue h1 =>
    obtain ⟨c0, _, rfl, hc0, hnil⟩ := List.map_eq_cons_iff.mp hbytes
    obtain rfl := List.map_eq_nil_iff.mp hnil
    exact ⟨c0, [], rfl, by omega, by simp, .inl ⟨rfl, by omega⟩⟩
  case isFalse h1 =>
  obtain ⟨c0, tail, rfl, hc0, hne, htail⟩ : ∃ c0 tail, bytes = c0 :: tail ∧ 192 ≤ c0.toNat ∧
      tail.map UInt8.toNat ≠ [] ∧ ∀ n ∈ tail.map UInt8.toNat, 128 ≤ n ∧ n < 192 := by
    split at hbytes
    case isTrue h2 =>
      obtain ⟨c0, tail, rfl, hc0, htail⟩ := List.map_eq_cons_iff.mp hbytes
      exact ⟨c0, tail, rfl, by omega, by simp [htail], by rw [htail]; simp; omega⟩
    case isFalse h2 =>
    split at hbytes
    case isTrue h3 =>
      obtain ⟨c0, tail, rfl, hc0, htail⟩ := List.map_eq_cons_iff.mp hbytes
      exact ⟨c0, tail, rfl, by omega, by simp [htail], by rw [htail]; simp; omega⟩
    case isFalse h3 =>
      obtain ⟨c0, tail, rfl, hc0, htail⟩ := List.map_eq_cons_iff.mp hbytes
      exact ⟨c0, tail, rfl, by omega, by simp [htail], by rw [htail]; simp; omega⟩
  refine ⟨c0, tail, rfl, by omega, ?_, .inr ⟨mt List.map_eq_nil_iff.mpr hne, by omega⟩⟩
  intro b hb
  exact htail _ (List.mem_map_of_mem hb)

theorem valid_utf8_character {c : UInt32} (hc : UnicodeScalar c) (s : List UInt8) :
    valid_utf8 (utf8_encode_one c ++ s) ↔ valid_utf8 s := by
  simp only [valid_utf8_iff]
  constructor
  · rintro ⟨cs, hcs, htext⟩
    have hread := utf8_decode_encode hc s
    obtain _ | ⟨d, cs⟩ := cs
    · obtain ⟨lead, tail, hbytes, _⟩ := utf8_encode_one_bytes hc
      rw [hbytes] at htext
      cases htext
    · obtain ⟨hd, hcs⟩ := List.forall_mem_cons.mp hcs
      rw [htext, List.flatMap_cons, utf8_decode_encode hd, Option.some.injEq, Prod.mk.injEq] at hread
      obtain ⟨rfl, _⟩ := hread
      exact ⟨cs, hcs, List.append_cancel_left htext⟩
  · rintro ⟨cs, hcs, rfl⟩
    exact ⟨c :: cs, List.forall_mem_cons.mpr ⟨hc, hcs⟩, rfl⟩

/-- Valid texts are put together from characters. -/
theorem valid_utf8_induction {motive : List UInt8 → Prop} {s : List UInt8} (h : valid_utf8 s) (nil : motive [])
    (character : ∀ c t, UnicodeScalar c → valid_utf8 t → motive t → motive (utf8_encode_one c ++ t)) : motive s := by
  obtain ⟨cs, hcs, rfl⟩ := valid_utf8_iff.mp h
  clear h
  induction cs with
  | nil => exact nil
  | cons c cs ih =>
    obtain ⟨hc, hcs⟩ := List.forall_mem_cons.mp hcs
    exact character c _ hc (valid_utf8_iff.mpr ⟨cs, hcs, rfl⟩) (ih hcs)

theorem valid_utf8_append {s t : List UInt8} (hs : valid_utf8 s) : valid_utf8 (s ++ t) ↔ valid_utf8 t := by
  refine valid_utf8_induction (motive := fun s => valid_utf8 (s ++ t) ↔ valid_utf8 t) hs Iff.rfl ?_
  intro c s hc _ ih
  rw [List.append_assoc, valid_utf8_character hc]
  exact ih

theorem valid_utf8_ascii {b : UInt8} (hb : b < 0x80) (s : List UInt8) : valid_utf8 (b :: s) ↔ valid_utf8 s := by
  have hlt : b.toNat < 128 := UInt8.lt_iff_toNat_lt.mp hb
  have hcode : b.toUInt32.toNat = b.toNat := UInt8.toNat_toUInt32 b
  have hc : UnicodeScalar b.toUInt32 := by
    simp only [UnicodeScalar, UInt32.le_iff_toNat_le, UInt32.reduceToNat, hcode]
    omega
  have hencode : utf8_encode_one b.toUInt32 = [b] := by
    refine eq_of_map_toNat ?_
    rw [toNat_utf8_encode_one (by omega), if_pos (by omega), hcode]
    rfl
  have hstep := valid_utf8_character hc s
  rwa [hencode] at hstep

/-- Only characters of ASCII. -/
def Ascii (s : List UInt8) : Prop := ∀ b ∈ s, b < 0x80

instance (s : List UInt8) : Decidable (Ascii s) := List.decidableBAll _ s

theorem valid_utf8_of_ascii {s : List UInt8} (h : Ascii s) : valid_utf8 s := by
  induction s with
  | nil => exact valid_utf8_nil
  | cons b s ih =>
    obtain ⟨hb, hs⟩ := List.forall_mem_cons.mp h
    exact (valid_utf8_ascii hb s).mpr (ih hs)

/-- The first byte of a text continues no character. -/
theorem valid_utf8_head {b : UInt8} {s : List UInt8} (h : valid_utf8 (b :: s)) : ¬ utf8_continues b := by
  obtain ⟨cs, hcs, htext⟩ := valid_utf8_iff.mp h
  obtain _ | ⟨c, cs⟩ := cs
  · cases htext
  · obtain ⟨lead, tail, hbytes, hlead, _⟩ := utf8_encode_one_bytes (hcs c List.mem_cons_self)
    rw [List.flatMap_cons, hbytes, List.cons_append, List.cons.injEq] at htext
    exact htext.1 ▸ hlead

/-- A valid text may be cut exactly where no character is continued. -/
theorem valid_utf8_cut {s t : List UInt8} (h : valid_utf8 (s ++ t)) :
    valid_utf8 s ↔ ∀ b ∈ t.head?, ¬ utf8_continues b := by
  constructor
  · intro hs b hb
    obtain ⟨t, rfl⟩ := List.head?_eq_some_iff.mp hb
    exact valid_utf8_head ((valid_utf8_append hs).mp h)
  · intro hcut
    generalize htext : s ++ t = text at h
    revert s
    refine valid_utf8_induction (motive := fun text => ∀ {s}, s ++ t = text → valid_utf8 s) h ?_ ?_
    · intro s hs
      rw [(List.append_eq_nil_iff.mp hs).1]
      exact valid_utf8_nil
    · intro c text hc _ ih s hs
      obtain ⟨more, rfl, hmore⟩ | ⟨more, hencode, ht⟩ := List.append_eq_append_iff.mp hs.symm
      · exact (valid_utf8_character hc more).mpr (ih hmore.symm)
      · obtain ⟨lead, tail, hbytes, _, htail, _⟩ := utf8_encode_one_bytes hc
        obtain _ | ⟨b, more⟩ := more
        · rw [List.append_nil] at hencode
          rw [← hencode, ← List.append_nil (utf8_encode_one c), valid_utf8_character hc]
          exact valid_utf8_nil
        · obtain _ | ⟨first, s⟩ := s
          · exact valid_utf8_nil
          · rw [hbytes, List.cons_append, List.cons.injEq] at hencode
            have hb : b ∈ tail := hencode.2 ▸ List.mem_append_right s List.mem_cons_self
            exact absurd (htail b hb) (hcut b (by rw [ht]; rfl))

theorem valid_utf8_take {s : List UInt8} (h : valid_utf8 s) (n : Nat) :
    valid_utf8 (s.take n) ↔ ∀ b ∈ s[n]?, ¬ utf8_continues b := by
  rw [← List.take_append_drop n s] at h
  rw [valid_utf8_cut h, List.head?_drop]

/-- An ASCII byte stands between characters. -/
theorem valid_utf8_around {b : UInt8} (hb : b < 0x80) (s t : List UInt8) :
    valid_utf8 (s ++ b :: t) ↔ valid_utf8 s ∧ valid_utf8 t := by
  constructor
  · intro h
    have hs : valid_utf8 s := by
      refine (valid_utf8_cut h).mpr fun x hx => ?_
      cases hx
      exact not_continues_of_ascii hb
    exact ⟨hs, (valid_utf8_ascii hb t).mp ((valid_utf8_append hs).mp h)⟩
  · rintro ⟨hs, ht⟩
    exact (valid_utf8_append hs).mpr ((valid_utf8_ascii hb t).mpr ht)

theorem valid_utf8_append_ascii {t : List UInt8} (ht : Ascii t) (s : List UInt8) :
    valid_utf8 (s ++ t) ↔ valid_utf8 s := by
  cases t with
  | nil => rw [List.append_nil]
  | cons b t =>
    obtain ⟨hb, ht⟩ := List.forall_mem_cons.mp ht
    rw [valid_utf8_around hb]
    exact and_iff_left (valid_utf8_of_ascii ht)

theorem valid_utf8_ascii_append {s : List UInt8} (hs : Ascii s) (t : List UInt8) :
    valid_utf8 (s ++ t) ↔ valid_utf8 t :=
  valid_utf8_append (valid_utf8_of_ascii hs)

/-- A single byte is a character of ASCII. -/
theorem valid_utf8_singleton {b : UInt8} : valid_utf8 [b] ↔ b < 0x80 := by
  constructor
  · intro h
    obtain ⟨cs, hcs, htext⟩ := valid_utf8_iff.mp h
    obtain _ | ⟨c, cs⟩ := cs
    · cases htext
    · obtain ⟨lead, tail, hbytes, _, _, hsize⟩ := utf8_encode_one_bytes (hcs c List.mem_cons_self)
      rw [List.flatMap_cons, hbytes, List.cons_append, List.cons.injEq] at htext
      obtain ⟨rfl, hnil⟩ := htext
      obtain ⟨_, hascii⟩ | ⟨hne, _⟩ := hsize
      · exact hascii
      · exact absurd (List.append_eq_nil_iff.mp hnil.symm).1 hne
  · intro hb
    exact (valid_utf8_ascii hb []).mpr valid_utf8_nil

end stoned
