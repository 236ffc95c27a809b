import Stoned.Scan

namespace stoned

/-! What passing over characters leaves as it is. -/

namespace Lexer

/-- Only the place in the text has changed. -/
inductive Passed (l : Lexer) : Lexer → Prop where
  | mk (pos line line_start : Nat) (had_space : Bool) : Passed l { l with pos, line, line_start, had_space }

namespace Passed
variable {l l' l'' : Lexer}

theorem refl (l : Lexer) : Passed l l := .mk l.pos l.line l.line_start l.had_space

theorem trans : Passed l l' → Passed l' l'' → Passed l l''
  | .mk .., .mk .. => .mk ..

theorem src (h : Passed l l') : l'.src = l.src := by cases h; rfl
theorem state (h : Passed l l') : l'.state = l.state := by cases h; rfl
theorem imode (h : Passed l l') : l'.imode = l.imode := by cases h; rfl
theorem peeked (h : Passed l l') : l'.peeked = l.peeked := by cases h; rfl
theorem prev_was_dot (h : Passed l l') : l'.prev_was_dot = l.prev_was_dot := by cases h; rfl

theorem hd_pending (h : Passed l l') : l'.hd_pending = l.hd_pending := by cases h; rfl
theorem hd_rol_end (h : Passed l l') : l'.hd_rol_end = l.hd_rol_end := by cases h; rfl
theorem hd_final_resume (h : Passed l l') : l'.hd_final_resume = l.hd_final_resume := by cases h; rfl

theorem placed (h : Passed l l') (line line_start : Nat) (had_space : Bool) :
    Passed l { l' with line, line_start, had_space } :=
  h.trans (.mk ..)

theorem spaced (h : Passed l l') (had_space : Bool) : Passed l { l' with had_space } := h.trans (.mk ..)

end Passed

section
variable (l : Lexer)

theorem passed_advance : Passed l l.advance := by
  unfold advance
  split <;> exact .mk ..

@[simp] theorem advance_pos : l.advance.pos = l.pos + 1 := by
  unfold advance
  split <;> rfl

@[simp] theorem advance_src : l.advance.src = l.src := l.passed_advance.src
@[simp] theorem advance_state : l.advance.state = l.state := l.passed_advance.state
@[simp] theorem advance_imode : l.advance.imode = l.imode := l.passed_advance.imode

theorem passed_skip_while (p : Char → Bool) (fuel : Nat) : Passed l (skip_while p fuel l) := by
  induction fuel generalizing l with
  | zero => exact .refl l
  | succ fuel ih =>
    rw [skip_while]
    split
    · exact l.passed_advance.trans (ih l.advance)
    · exact .refl l

theorem passed_advance_while (p : Char → Bool) : Passed l (l.advance_while p) := l.passed_skip_while p _

theorem passed_advance_if (p : Char → Bool) : Passed l (l.advance_if p) := by
  unfold advance_if
  split
  · exact l.passed_advance
  · exact .refl l

theorem passed_next_line : Passed l l.next_line := (l.passed_advance_while _).trans (passed_advance_if _ _)

theorem passed_skip_blanks (fuel : Nat) : Passed l (skip_blanks fuel l) := by
  induction fuel generalizing l with
  | zero => exact .refl l
  | succ fuel ih =>
    simp only [skip_blanks]
    split
    · exact .refl l
    split
    · exact (l.passed_advance.spaced true).trans (ih _)
    split
    · exact ((l.passed_advance.trans l.advance.passed_advance).spaced true).trans (ih _)
    split
    · exact ((l.passed_advance_while _).spaced true).trans (ih _)
    split
    · exact (l.passed_advance.placed _ _ true).trans (ih _)
    · exact .refl l

theorem passed_skip_whitespace : Passed l l.skip_whitespace := l.passed_skip_blanks _

/-- Between tokens only the place changes, and whether a heredoc's end is still
ahead. -/
theorem passed_skip_between : ∃ hd_pending, Passed { l with hd_pending } l.skip_between := by
  have hfirst := passed_skip_whitespace { l with had_space := false }
  simp only [skip_between]
  split
  · refine ⟨false, Passed.trans ?_ (passed_skip_whitespace _)⟩
    generalize { l with had_space := false }.skip_whitespace = l' at hfirst
    cases hfirst
    exact .mk ..
  · exact ⟨l.hd_pending, Passed.trans (.mk ..) hfirst⟩

theorem skip_between_src : l.skip_between.src = l.src := l.passed_skip_between.elim fun _ h => h.src
theorem skip_between_state : l.skip_between.state = l.state := l.passed_skip_between.elim fun _ h => h.state
theorem skip_between_imode : l.skip_between.imode = l.imode := l.passed_skip_between.elim fun _ h => h.imode

@[simp] theorem after_token_pos (t : Token) : (l.after_token t).pos = l.pos := by
  simp only [after_token]
  split
  · rfl
  · split <;> rfl

/-- Behind a token only what is expected next is another. -/
theorem after_token_frame (t : Token) :
    ∃ state prev_was_dot after_def, l.after_token t = { l with state, prev_was_dot, after_def } := by
  simp only [after_token]
  split
  · exact ⟨_, _, _, rfl⟩
  · split <;> exact ⟨_, _, _, rfl⟩

/-- The text that has not been read. -/
def ahead : List Char := l.src.drop l.pos

theorem ahead_length : l.ahead.length = l.len - l.pos := List.length_drop

@[simp] theorem ahead_advance : l.advance.ahead = l.ahead.tail := by
  rw [ahead, ahead, advance_src, advance_pos, List.tail_drop]

theorem at_end_eq : l.at_end = l.ahead.isEmpty := by
  rw [Bool.eq_iff_iff, List.isEmpty_iff, ahead, List.drop_eq_nil_iff, at_end, decide_eq_true_eq, len]

theorem char_at_eq (n : Nat) : l.char_at (l.pos + n) = (l.ahead.drop n).headD '\x00' := by
  rw [char_at, ahead, List.drop_drop, List.headD_eq_head?_getD, List.head?_drop, List.getD_eq_getElem?_getD]

theorem peek_ch_eq : l.peek_ch = l.ahead.headD '\x00' := l.char_at_eq 0

theorem peek2_eq : l.peek2 = l.ahead.tail.headD '\x00' := by
  rw [peek2, char_at_eq, List.drop_one]

theorem ahead_skip_while (p : Char → Bool) (fuel : Nat) (h : l.ahead.length ≤ fuel) :
    (skip_while p fuel l).ahead = l.ahead.dropWhile p := by
  induction fuel generalizing l with
  | zero =>
    have hnil : l.ahead = [] := List.eq_nil_of_length_eq_zero (Nat.le_zero.mp h)
    rw [skip_while, hnil, List.dropWhile_nil]
  | succ fuel ih =>
    rw [skip_while, at_end_eq, peek_ch_eq]
    cases hahead : l.ahead with
    | nil => simp [hahead]
    | cons c rest =>
      rw [hahead, List.length_cons] at h
      have hrest : l.advance.ahead = rest := by rw [ahead_advance, hahead, List.tail_cons]
      by_cases hp : p c = true
      · simpa [hp, List.dropWhile_cons, hrest] using ih l.advance (by rw [hrest]; omega)
      · simp [hp, hahead]

theorem pos_skip_while (p : Char → Bool) (fuel : Nat) (h : l.ahead.length ≤ fuel) :
    (skip_while p fuel l).pos = l.pos + (l.ahead.takeWhile p).length := by
  induction fuel generalizing l with
  | zero =>
    have hnil : l.ahead = [] := List.eq_nil_of_length_eq_zero (Nat.le_zero.mp h)
    rw [skip_while, hnil]
    rfl
  | succ fuel ih =>
    rw [skip_while, at_end_eq, peek_ch_eq]
    cases hahead : l.ahead with
    | nil => simp
    | cons c rest =>
      rw [hahead, List.length_cons] at h
      have hrest : l.advance.ahead = rest := by rw [ahead_advance, hahead, List.tail_cons]
      by_cases hp : p c = true
      · have hnext := ih l.advance (by rw [hrest]; omega)
        rw [hrest, advance_pos] at hnext
        simp only [List.isEmpty_cons, Bool.not_false, List.headD_cons, hp, Bool.and_self, if_true, hnext,
          List.takeWhile_cons, List.length_cons]
        omega
      · simp [hp]

theorem pos_advance_while (p : Char → Bool) :
    (l.advance_while p).pos = l.pos + (l.ahead.takeWhile p).length :=
  l.pos_skip_while p _ l.ahead_length.le

theorem ahead_advance_while (p : Char → Bool) : (l.advance_while p).ahead = l.ahead.dropWhile p :=
  l.ahead_skip_while p _ l.ahead_length.le

end

/-- The next token that is no part of a string. -/
theorem lexer_next_here {l : Lexer} (hpeeked : l.peeked = none)
    (hcode : l.imode_top = .normal ∨ l.imode_top = .interp_expr) :
    l.lexer_next = (l.skip_between.scan_here.1,
      l.skip_between.scan_here.2.after_token l.skip_between.scan_here.1) := by
  have hscan : l.scan = l.skip_between.scan_here := by
    rcases hcode with hmode | hmode <;> simp only [scan, hmode]
  simp only [lexer_next, hpeeked, hscan]

end Lexer
end stoned
