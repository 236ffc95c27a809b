import Stoned.HeredocRun

namespace stoned.Lexer

/-! Where the scanners stop: never in front of where they began. -/

theorem le_advance (l : Lexer) : l.pos ≤ l.advance.pos := (advance_pos l).symm ▸ Nat.le_succ _

theorem Moved.le {l l' : Lexer} (h : Moved l l') : l.pos ≤ l'.pos := by
  induction h with
  | refl => exact le_rfl
  | @advance l' _ ih => exact ih.trans l'.le_advance
  | expect _ _ _ _ ih => exact ih
  | top _ _ _ ih => exact ih
  | close _ _ ih => exact ih

@[simp] theorem imode_push_pos (l : Lexer) (mode : LexMode) : (l.imode_push mode).pos = l.pos := by
  unfold imode_push
  split <;> rfl

theorem Turned.le {l l' : Lexer} {turn : Turn} (h : Turned l turn l') : l.pos ≤ l'.pos := by
  cases h with
  | stays hmoved => exact hmoved.le
  | opens mode hmoved hbehind => exact (hmoved.le.trans (imode_push_pos ..).symm.le).trans hbehind.le
  | closes hmoved _ => exact hmoved.le

variable (l : Lexer) (start line col : Nat)

theorem le_skip_while (p : Char → Bool) (fuel : Nat) : l.pos ≤ (skip_while p fuel l).pos := by
  induction fuel generalizing l with
  | zero => exact le_rfl
  | succ fuel ih =>
    rw [skip_while]
    split
    · have hrest := ih l.advance
      rw [advance_pos] at hrest
      omega
    · exact le_rfl

theorem le_advance_while (p : Char → Bool) : l.pos ≤ (l.advance_while p).pos := l.le_skip_while p _

theorem le_advance_if (p : Char → Bool) : l.pos ≤ (l.advance_if p).pos := (l.moved_advance_if p).le

theorem le_skip_blanks (fuel : Nat) : l.pos ≤ (skip_blanks fuel l).pos := by
  induction fuel generalizing l with
  | zero => exact le_rfl
  | succ fuel ih =>
    simp only [skip_blanks]
    split
    · exact le_rfl
    split
    · refine le_trans ?_ (ih _)
      exact l.le_advance
    split
    · refine le_trans ?_ (ih _)
      exact l.le_advance.trans (le_advance _)
    split
    · refine le_trans ?_ (ih _)
      exact l.le_advance_while _
    split
    · refine le_trans ?_ (ih _)
      exact l.le_advance
    · exact le_rfl

theorem le_skip_whitespace : l.pos ≤ l.skip_whitespace.pos := l.le_skip_blanks _

/-- The character behind a backslash is read with it. -/
theorem lt_string_escape : l.pos < l.string_escape.2.pos := by
  have hone : l.pos < l.advance.pos := (advance_pos l).symm ▸ Nat.lt_succ_self _
  simp only [string_escape]
  split
  · exact hone
  · split_ifs
    · exact hone.trans_le (moved_hex_escape _).le
    · exact hone.trans_le (moved_unicode_escape _).le
    · exact hone.trans_le (moved_octal_digits ..).le
    · exact hone

theorem le_skip_indent (n : Nat) : l.pos ≤ (skip_indent n l).pos := by
  induction n generalizing l with
  | zero => exact le_rfl
  | succ n ih =>
    rw [skip_indent]
    split
    · exact l.le_advance.trans (ih _)
    · exact le_rfl

theorem le_after_indent : l.pos ≤ l.after_indent.pos := by
  unfold after_indent
  split
  · exact l.le_skip_indent _
  · exact le_rfl

theorem le_heredoc_content (fuel : Nat) : l.pos ≤ (heredoc_content fuel l).2.pos := by
  induction fuel generalizing l with
  | zero => exact le_rfl
  | succ fuel ih =>
    have hone : l.pos ≤ l.advance.pos := l.le_advance
    simp only [heredoc_content]
    split_ifs
    · exact le_rfl
    · exact hone
    · exact (hone.trans (le_advance _)).trans (ih _)
    · exact hone
    · exact hone.trans (ih _)

theorem le_next_line : l.pos ≤ l.next_line.pos := (l.le_advance_while _).trans (le_advance_if ..)

theorem le_heredoc_style : l.pos ≤ l.heredoc_style.2.pos := l.moved_heredoc_style.le

theorem lt_advance_while {p : Char → Bool} (h : p l.peek_ch = true) (hend : l.at_end = false) :
    l.pos < (l.advance_while p).pos := by
  have hlt : l.pos < l.len := by simpa [at_end] using hend
  obtain ⟨fuel, hfuel⟩ := Nat.exists_eq_succ_of_ne_zero (Nat.sub_ne_zero_of_lt hlt)
  have hrest := l.advance.le_skip_while p fuel
  rw [advance_pos] at hrest
  rw [advance_while, hfuel, skip_while, hend, h]
  exact hrest

theorem lt_next_line (hend : l.at_end = false) : l.pos + 1 ≤ l.next_line.pos := by
  by_cases hline : l.peek_ch = '\n'
  · have hhere : l.line_end = l := by
      unfold line_end advance_while
      cases l.len - l.pos with
      | zero => rfl
      | succ fuel => simp [skip_while, hline]
    rw [next_line, hhere, advance_if, if_pos (decide_eq_true hline), advance_pos]
  · have hmore : l.pos + 1 ≤ l.line_end.pos := l.lt_advance_while (by simpa using hline) hend
    exact hmore.trans (le_advance_if ..)

theorem le_scan_prefixed (digit : Char → Bool) : l.pos + 2 ≤ (l.scan_prefixed start line col digit).2.pos := by
  have hdigits := l.advance.advance.le_advance_while fun c => digit c || c = '_'
  rw [advance_pos, advance_pos] at hdigits
  exact hdigits

theorem le_ite {n : Nat} {c : Prop} [Decidable c] {l l' : Lexer} (h : n ≤ l.pos) (h' : n ≤ l'.pos) :
    n ≤ (if c then l else l').pos := by
  split
  · exact h
  · exact h'

theorem le_suffix {n : Nat} {c c' : Prop} [Decidable c] [Decidable c'] {t t' t'' : Token} {l : Lexer} (h : n ≤ l.pos) :
    n ≤ (if c then (t, l.advance) else if c' then (t', l.advance) else (t'', l)).2.pos := by
  split_ifs
  · exact h.trans l.le_advance
  · exact h.trans l.le_advance
  · exact h

/-- A number takes at least its first digit. -/
theorem lt_scan_number (h : isdigit l.peek_ch = true) (hend : l.at_end = false) :
    l.pos + 1 ≤ (l.scan_number start line col).2.pos := by
  have hprefixed (digit : Char → Bool) : l.pos + 1 ≤ (l.scan_prefixed start line col digit).2.pos :=
    (Nat.le_succ _).trans (l.le_scan_prefixed start line col digit)
  unfold scan_number
  extract_lets prefix_is
  split
  · exact hprefixed _
  split
  · exact hprefixed _
  split
  · exact hprefixed _
  rename_i digits whole fraction real exponent number t _ _ _
  have hwhole : l.pos + 1 ≤ whole.pos := l.lt_advance_while (Bool.or_eq_true_iff.mpr (.inl h)) hend
  have hreal : l.pos + 1 ≤ real.pos := le_ite (hwhole.trans ((le_advance _).trans (le_advance_while ..))) hwhole
  have hnumber : l.pos + 1 ≤ number.pos :=
    le_ite ((hreal.trans (le_advance _)).trans ((le_advance_if ..).trans (le_advance_while ..))) hreal
  exact le_suffix hnumber

/-- A name takes at least its first character. -/
theorem lt_scan_ident (h : is_word l.peek_ch = true) (hend : l.at_end = false) :
    l.pos + 1 ≤ (l.scan_ident start line col).2.pos := by
  have hword : l.pos + 1 ≤ (l.advance_while is_word).pos := l.lt_advance_while h hend
  have hmark := hword.trans (le_advance_if _ fun c => c = '?' || c = '!')
  simp only [scan_ident]
  split <;> exact hmark

theorem lt_end (hend : l.at_end = false) : l.pos < l.len := by simpa [at_end] using hend

/-- A token takes at least one character, unless the text has ended. -/
theorem lt_scan_here (hend : l.at_end = false) (hopener : l.at_opener = false) : l.pos + 1 ≤ l.scan_here.2.pos := by
  have hone : l.pos + 1 ≤ l.advance.pos := (advance_pos l).symm.le
  by_cases hnewline : l.peek_ch = '\n'
  · simp only [scan_here, hend, hnewline, Bool.false_eq_true, if_false]
    exact hone
  cases hword : is_word l.peek_ch with
  | false => exact hone.trans (l.stepped_sign hend hnewline hopener hword).turned.le
  | true =>
    simp only [scan_here, hend, Bool.false_eq_true, if_false]
    rw [scan_char_word _ _ _ _ hword, advance_back l hnewline]
    split
    · exact l.lt_scan_number _ _ _ ‹_› hend
    · exact l.lt_scan_ident _ _ _ hword hend

theorem lt_begin_interpolation : l.pos + 1 ≤ l.begin_interpolation.2.pos := by
  have htwo : l.pos + 1 ≤ l.advance.advance.pos := (advance_pos l).symm.le.trans (le_advance _)
  exact htwo.trans (imode_push_pos ..).symm.le

/-- A literal segment of a string is not empty. -/
theorem lt_string_content {close_ch : Char} {fuel : Nat}
    (h : (l.at_end || l.peek_ch = close_ch || l.at_interpolation) = false) :
    l.pos + 1 ≤ (string_content close_ch (fuel + 1) l).2.pos := by
  have hone : l.pos + 1 ≤ l.advance.pos := (advance_pos l).symm.le
  simp only [string_content, h, Bool.false_eq_true, if_false]
  split_ifs
  · exact hone
  · exact (hone.trans (lt_string_escape _).le).trans (moved_string_content ..).le
  · exact hone.trans (moved_string_content ..).le

theorem lt_scan_interp_str_content (hend : l.at_end = false) : l.pos + 1 ≤ l.scan_interp_str_content.2.pos := by
  obtain ⟨fuel, hfuel⟩ := Nat.exists_eq_succ_of_ne_zero (Nat.sub_ne_zero_of_lt (l.lt_end hend))
  simp only [scan_interp_str_content, hend, Bool.false_or, Bool.false_eq_true, if_false]
  split
  · exact (advance_pos l).symm.le
  split
  · exact l.lt_begin_interpolation
  · rw [hfuel]
    exact l.lt_string_content (by simp_all)

theorem lt_regexp_content {fuel : Nat}
    (h : (l.at_end || (l.peek_ch = '/' && !l.in_class) || l.at_interpolation) = false) :
    l.pos + 1 ≤ (regexp_content (fuel + 1) l).2.pos := by
  have hone : l.pos + 1 ≤ l.advance.pos := (advance_pos l).symm.le
  simp only [regexp_content, h, Bool.false_eq_true, if_false]
  split
  · split
    · exact hone.trans (moved_regexp_content ..).le
    · exact (hone.trans (le_advance _)).trans (moved_regexp_content ..).le
  · refine le_trans ?_ (moved_regexp_content ..).le
    split_ifs <;> exact hone

theorem lt_scan_interp_regex_content (hend : l.at_end = false) : l.pos + 1 ≤ l.scan_interp_regex_content.2.pos := by
  obtain ⟨fuel, hfuel⟩ := Nat.exists_eq_succ_of_ne_zero (Nat.sub_ne_zero_of_lt (l.lt_end hend))
  simp only [scan_interp_regex_content, hend, Bool.not_false, Bool.true_and, Bool.false_eq_true, if_false]
  split
  · exact (advance_pos l).symm.le.trans (moved_regexp_flags ..).le
  split
  · exact l.lt_begin_interpolation
  · rw [hfuel]
    exact l.lt_regexp_content (by simp_all)

theorem lt_heredoc_content {fuel : Nat}
    (h : (decide (l.hd_body_end ≤ l.pos) || (l.peek_ch = '#' && l.pos + 1 < l.hd_body_end && l.peek2 = '{')) = false) :
    l.pos + 1 ≤ (heredoc_content (fuel + 1) l).2.pos := by
  have hone : l.pos + 1 ≤ l.advance.pos := (advance_pos l).symm.le
  simp only [heredoc_content, h, Bool.false_eq_true, if_false]
  split_ifs
  · exact hone
  · exact (hone.trans (le_advance _)).trans (le_heredoc_content ..)
  · exact hone
  · exact hone.trans (le_heredoc_content ..)

theorem lt_body (h : l.after_indent.pos < l.after_indent.hd_body_end) : l.pos + 1 ≤ l.scan_heredoc_content.2.pos := by
  have hindent : l.pos + 1 ≤ l.after_indent.pos + 1 := Nat.add_le_add_right l.le_after_indent 1
  obtain ⟨fuel, hfuel⟩ := Nat.exists_eq_succ_of_ne_zero (Nat.sub_ne_zero_of_lt h)
  rw [scan_heredoc_content_eq]
  simp only [Nat.not_le.mpr h, if_false]
  split
  · exact hindent.trans (lt_begin_interpolation _)
  · rw [hfuel]
    exact hindent.trans (lt_heredoc_content _ (by simp_all))

end stoned.Lexer
