import Stoned.Passing

namespace stoned

/-! The text val_inspect writes for a string (value.c), and how the scanner of
strings reads it. -/

/-- The character that a byte is. -/
def char_of (b : UInt8) : Char := Char.ofNat b.toNat

def hex_digit (n : Nat) : Char := "0123456789abcdef".toList.getD n '0'

/-- A byte of a string, escaped if it has to be. Beyond ASCII a byte is escaped
in a binary string only. -/
def inspect_byte (ascii_8bit : Bool) (b : UInt8) : List Char :=
  match char_of b with
  | '"' => ['\\', '"']
  | '\\' => ['\\', '\\']
  | '\n' => ['\\', 'n']
  | '\x0d' => ['\\', 'r']
  | '\t' => ['\\', 't']
  | '\x1b' => ['\\', 'e']
  | c =>
    if b < 0x20 || b = 0x7f || (ascii_8bit && 0x7e < b) then
      ['\\', 'x', hex_digit (b.toNat / 16), hex_digit (b.toNat % 16)]
    else [c]

def inspect_bytes (ascii_8bit : Bool) (s : List UInt8) : List Char := s.flatMap (inspect_byte ascii_8bit)

def val_inspect_string (ascii_8bit : Bool) (s : List UInt8) : List Char :=
  '"' :: (inspect_bytes ascii_8bit s ++ ['"'])

/-- The two bytes that open an interpolation. -/
def interpolation_opener : List UInt8 := [0x23, 0x7b]

/-- What a byte is written as: itself, or one of two kinds of escapes. -/
inductive InspectedAs (b : UInt8) : List Char → Prop where
  | plain (unquoted : char_of b ≠ '"') (unescaped : char_of b ≠ '\\') (printed : ' ' ≤ char_of b) :
    InspectedAs b [char_of b]
  | letter {e : Char} (simple : Lexer.simple_escape e = some (char_of b)) : InspectedAs b ['\\', e]
  | hex {high low : Char} {h l : Nat} (high_value : hex_value high = some h) (low_value : hex_value low = some l)
      (value : byte (h * 16 + l) = char_of b) : InspectedAs b ['\\', 'x', high, low]

theorem hex_value_hex_digit : ∀ n : Nat, n < 16 → hex_value (hex_digit n) = some n
  | 0, _ | 1, _ | 2, _ | 3, _ | 4, _ | 5, _ | 6, _ | 7, _ | 8, _ | 9, _ | 10, _ | 11, _ | 12, _ | 13, _ | 14, _
  | 15, _ => by decide
  | _ + 16, h => absurd h (by omega)

theorem char_of_toNat (b : UInt8) : (char_of b).toNat = b.toNat := by
  have hvalid : b.toNat.isValidChar := .inl (by have := b.toNat_lt; omega)
  rw [char_of, Char.ofNat, dif_pos hvalid]
  rfl

theorem char_of_injective {a b : UInt8} (h : char_of a = char_of b) : a = b :=
  UInt8.toNat_inj.mp (by rw [← char_of_toNat a, h, char_of_toNat b])

theorem inspect_byte_spec (ascii_8bit : Bool) (b : UInt8) : InspectedAs b (inspect_byte ascii_8bit b) := by
  have hlt : b.toNat < 256 := b.toNat_lt
  unfold inspect_byte
  split
  case h_1 hchar => exact .letter (by rw [hchar]; rfl)
  case h_2 hchar => exact .letter (by rw [hchar]; rfl)
  case h_3 hchar => exact .letter (by rw [hchar]; rfl)
  case h_4 hchar => exact .letter (by rw [hchar]; rfl)
  case h_5 hchar => exact .letter (by rw [hchar]; rfl)
  case h_6 hchar => exact .letter (by rw [hchar]; rfl)
  case h_7 hquote hbackslash _ _ _ _ =>
    split
    case isTrue =>
      refine .hex (hex_value_hex_digit _ (by omega)) (hex_value_hex_digit _ (by omega)) ?_
      rw [byte, char_of, Nat.div_add_mod', Nat.mod_eq_of_lt hlt]
    case isFalse hprinted =>
      refine .plain hquote hbackslash ?_
      simp only [Bool.or_eq_true, decide_eq_true_eq, not_or, UInt8.not_lt] at hprinted
      rw [Char.le_def, UInt32.le_iff_toNat_le]
      exact (UInt8.le_iff_toNat_le.mp hprinted.1.1).trans_eq (char_of_toNat b).symm

/-- No line ends where a string is written. -/
theorem InspectedAs.no_newline {b : UInt8} {written : List Char} (h : InspectedAs b written) {c : Char}
    (hc : c ∈ written) : c ≠ '\n' := by
  rintro rfl
  cases h with
  | plain _ _ hprinted =>
    rw [List.mem_singleton] at hc
    rw [← hc] at hprinted
    exact absurd hprinted (by decide)
  | letter hsimple =>
    simp only [List.mem_cons, Char.reduceEq, List.not_mem_nil, or_false, false_or] at hc
    rw [← hc] at hsimple
    exact absurd hsimple nofun
  | hex hhigh hlow _ =>
    simp only [List.mem_cons, Char.reduceEq, List.not_mem_nil, or_false, false_or] at hc
    rcases hc with rfl | rfl
    · exact absurd hhigh nofun
    · exact absurd hlow nofun

theorem inspect_bytes_no_newline {ascii_8bit : Bool} {s : List UInt8} {c : Char} (hc : c ∈ inspect_bytes ascii_8bit s) :
    c ≠ '\n' := by
  obtain ⟨b, _, hb⟩ := List.mem_flatMap.mp hc
  exact (inspect_byte_spec ascii_8bit b).no_newline hb

theorem length_inspect_bytes (ascii_8bit : Bool) (s : List UInt8) : s.length ≤ (inspect_bytes ascii_8bit s).length := by
  induction s with
  | nil => exact Nat.zero_le _
  | cons b s ih =>
    have hbyte : 1 ≤ (inspect_byte ascii_8bit b).length := by
      have hspec := inspect_byte_spec ascii_8bit b
      generalize inspect_byte ascii_8bit b = written at hspec
      cases hspec <;> simp
    rw [inspect_bytes, List.flatMap_cons, List.length_append, List.length_cons, Nat.add_comm]
    exact Nat.add_le_add hbyte ih

/-- Where a string's content goes on or ends: nothing more, its closing quote
or an interpolation. -/
def stops_content : List Char → Bool
  | [] => true
  | '"' :: _ => true
  | '#' :: '{' :: _ => true
  | _ => false

namespace Lexer

theorem at_interpolation_eq (l : Lexer) :
    l.at_interpolation = (l.ahead.headD '\x00' = '#' && l.ahead.tail.headD '\x00' = '{' : Bool) := by
  rw [at_interpolation, peek_ch_eq, peek2_eq]

/-- Content ends where it stops. -/
theorem string_content_stops (fuel : Nat) (l : Lexer) (h : stops_content l.ahead = true) :
    string_content '"' fuel l = ([], l) := by
  cases fuel with
  | zero => rfl
  | succ fuel =>
    rw [string_content, at_end_eq, peek_ch_eq, at_interpolation_eq]
    unfold stops_content at h
    split at h <;> simp_all

/-- An escape sequence stands for the byte it was written for. -/
theorem string_escape_inspected {l : Lexer} {b : UInt8} {e more : List Char}
    (h : InspectedAs b ('\\' :: e)) (hahead : l.ahead = e ++ more) (hne : e ≠ []) :
    l.string_escape.1 = [char_of b] ∧ l.string_escape.2.ahead = more ∧ Passed l l.string_escape.2 := by
  generalize hfull : '\\' :: e = full at h
  cases h with
  | plain =>
    simp only [List.cons.injEq] at hfull
    exact absurd hfull.2 hne
  | @letter c hsimple =>
    simp only [List.cons.injEq, true_and] at hfull
    subst hfull
    rw [string_escape, peek_ch_eq, hahead, List.cons_append, List.headD_cons, hsimple]
    refine ⟨rfl, ?_, l.passed_advance⟩
    rw [ahead_advance, hahead]
    rfl
  | @hex high low h lo hhigh hlow hvalue =>
    simp only [List.cons.injEq, true_and] at hfull
    subst hfull
    have hfirst : l.advance.ahead = high :: low :: more := by rw [ahead_advance, hahead]; rfl
    have hsecond : l.advance.advance.ahead = low :: more := by rw [ahead_advance, hfirst]; rfl
    have hthird : l.advance.advance.advance.ahead = more := by rw [ahead_advance, hsecond]; rfl
    have hdigits : hex_digits 2 l.advance 0 0 = (h * 16 + lo, 2, l.advance.advance.advance) := by
      rw [hex_digits, at_end_eq, peek_ch_eq, hfirst]
      simp only [List.isEmpty_cons, Bool.false_eq_true, if_false, List.headD_cons, hhigh]
      rw [hex_digits, at_end_eq, peek_ch_eq, hsecond]
      simp only [List.isEmpty_cons, Bool.false_eq_true, if_false, List.headD_cons, hlow, hex_digits, Nat.zero_mul,
        Nat.zero_add, Nat.reduceAdd]
    have hescape : simple_escape 'x' = none := rfl
    rw [string_escape, peek_ch_eq, hahead, List.cons_append, List.headD_cons, hescape]
    simp only [if_true, hex_escape, hdigits]
    exact ⟨congrArg (fun c => [c]) hvalue, hthird,
      (l.passed_advance.trans l.advance.passed_advance).trans l.advance.advance.passed_advance⟩

/-- One byte of a string is read from what it was written as. -/
theorem string_content_byte {l : Lexer} {b : UInt8} {written more : List Char} (h : InspectedAs b written)
    (hahead : l.ahead = written ++ more) (hopener : char_of b = '#' → more.headD '\x00' ≠ '{') (fuel : Nat) :
    ∃ l', Passed l l' ∧ l'.ahead = more ∧
      string_content '"' (fuel + 1) l =
        (char_of b :: (string_content '"' fuel l').1, (string_content '"' fuel l').2) := by
  have hnext : l.advance.ahead = written.tail ++ more := by
    rw [ahead_advance, hahead]
    cases h <;> rfl
  by_cases hescaped : ∃ e, written = '\\' :: e ∧ e ≠ []
  · obtain ⟨e, rfl, hne⟩ := hescaped
    obtain ⟨hbytes, hmore, hpassed⟩ := string_escape_inspected (l := l.advance) h hnext hne
    have hend : l.advance.at_end = false := by
      rw [at_end_eq, hnext, List.isEmpty_eq_false_iff]
      exact List.append_ne_nil_of_left_ne_nil hne more
    refine ⟨l.advance.string_escape.2, l.passed_advance.trans hpassed, hmore, ?_⟩
    rw [string_content, at_end_eq, peek_ch_eq, at_interpolation_eq, hahead]
    simp [hend, hbytes]
  · cases h with
    | plain hquote hbackslash =>
      refine ⟨l.advance, l.passed_advance, hnext, ?_⟩
      have hcode : l.at_interpolation = false := by
        rw [at_interpolation_eq, hahead, Bool.and_eq_false_imp, decide_eq_true_eq, decide_eq_false_iff_not]
        exact hopener
      have hchar : l.peek_ch = char_of b := by
        rw [peek_ch_eq, hahead]
        rfl
      have hend : l.at_end = false := by
        rw [at_end_eq, hahead]
        rfl
      rw [string_content]
      simp [hcode, hchar, hend, hquote, hbackslash]
    | letter => exact absurd ⟨_, rfl, by simp⟩ hescaped
    | hex => exact absurd ⟨_, rfl, by simp⟩ hescaped

theorem inspect_head (ascii_8bit : Bool) (b : UInt8) (more : List Char)
    (h : (inspect_byte ascii_8bit b ++ more).headD '\x00' = '{') : char_of b = '{' := by
  have hspec := inspect_byte_spec ascii_8bit b
  generalize inspect_byte ascii_8bit b = written at h hspec
  cases hspec <;> simp_all

/-- The content of a string is read as the bytes it was written for, up to
where it stops. -/
theorem string_content_inspected (ascii_8bit : Bool) (s : List UInt8) (hopener : ¬interpolation_opener <:+: s) {l : Lexer}
    {tail : List Char} (hahead : l.ahead = inspect_bytes ascii_8bit s ++ tail) (hstops : stops_content tail = true)
    {fuel : Nat} (hfuel : s.length ≤ fuel) :
    ∃ l', Passed l l' ∧ l'.ahead = tail ∧ string_content '"' fuel l = (s.map char_of, l') := by
  induction s generalizing l fuel with
  | nil => exact ⟨l, .refl l, hahead, string_content_stops fuel l (hahead ▸ hstops)⟩
  | cons b s ih =>
    obtain ⟨fuel, rfl⟩ := Nat.exists_eq_add_of_lt (Nat.lt_of_lt_of_le (Nat.succ_pos s.length) hfuel)
    rw [Nat.zero_add] at hfuel ⊢
    rw [inspect_bytes, List.flatMap_cons, List.append_assoc] at hahead
    have hnot_opener : char_of b = '#' → (inspect_bytes ascii_8bit s ++ tail).headD '\x00' ≠ '{' := by
      intro hb hbrace
      cases s with
      | nil =>
        rw [inspect_bytes, List.flatMap_nil, List.nil_append] at hbrace
        unfold stops_content at hstops
        split at hstops <;> simp_all
      | cons c s =>
        rw [inspect_bytes, List.flatMap_cons, List.append_assoc] at hbrace
        have hc := inspect_head ascii_8bit c _ hbrace
        have hhash : b = 0x23 := char_of_injective hb
        have hopens : c = 0x7b := char_of_injective hc
        subst hhash hopens
        exact hopener ⟨[], s, rfl⟩
    obtain ⟨l₁, hpassed, hmore, hread⟩ :=
      string_content_byte (inspect_byte_spec ascii_8bit b) hahead hnot_opener fuel
    obtain ⟨l₂, hrest, htail, hcontent⟩ :=
      ih (fun h => hopener (h.trans (List.suffix_cons b s).isInfix)) hmore (Nat.le_of_succ_le_succ hfuel)
    exact ⟨l₂, hpassed.trans hrest, htail, by rw [hread, hcontent, List.map_cons]⟩

end Lexer
end stoned
