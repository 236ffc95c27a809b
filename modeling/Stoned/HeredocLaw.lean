import Stoned.Scanned

namespace stoned

/-! Where a heredoc ends, and how a statement that has one is separated from
the next. -/

/-- What is skipped between tokens: a comment, or the line end behind a
backslash. -/
inductive Skipped where
  | blanks | comment | escape

/-- Whether nothing else is on the line. Behind a dot the next lines count
too. -/
def blank_line (dot : Bool) : Skipped → List Char → Bool
  | .blanks, [] | .comment, [] => true
  | .escape, [] => false
  | .blanks, c :: rest =>
    if c = '\n' then !dot || blank_line dot .blanks rest
    else if c = ' ' || c = '\t' || c = '\x0d' then blank_line dot .blanks rest
    else if c = '#' then blank_line dot .comment rest
    else c = '\\' && blank_line dot .escape rest
  | .comment, c :: rest =>
    if c = '\n' then !dot || blank_line dot .blanks rest else blank_line dot .comment rest
  | .escape, c :: rest => c = '\n' && blank_line dot .blanks rest

namespace Lexer

/-- Code is read, and no token has been looked at ahead. -/
structure InCode (l : Lexer) : Prop where
  not_peeked : l.peeked = none
  code : l.imode_top = .normal ∨ l.imode_top = .interp_expr

/-- The content of an interpolating heredoc is read. -/
def in_body (l : Lexer) : Bool := l.imode_top = .interp_str && l.hd_active && l.imode_depth = l.hd_imode_depth

/-- The lexer behind the indentation that is stripped from a body's line. -/
def after_indent (l : Lexer) : Lexer :=
  if l.hd_at_bol && 0 < l.hd_min_indent then { skip_indent l.hd_min_indent l with hd_at_bol := false } else l

def at_body_end (l : Lexer) : Bool := l.in_body && l.after_indent.hd_body_end ≤ l.after_indent.pos

/-- A heredoc without interpolation is opened here. -/
def at_raw_opener (l : Lexer) : Bool := l.at_opener && l.advance.advance.heredoc_style.1.quote = some '\''

/-- The next token is the last one of a heredoc. -/
def EndsHeredoc (l : Lexer) : Prop :=
  (l.InCode ∧ l.skip_between.at_raw_opener = true) ∨ (l.peeked = none ∧ l.at_body_end = true)

/-- The lexer behind blanks and comments. -/
def behind_blanks (l : Lexer) : Lexer := { l with had_space := false }.skip_whitespace

/-- What follows a heredoc on its opener's line has been read. -/
def rest_read (l : Lexer) : Bool := l.hd_pending && l.hd_rol_end ≤ l.behind_blanks.pos

/-- The lexer where it resumes behind a heredoc. -/
def resumed (l : Lexer) : Lexer :=
  let l := l.behind_blanks
  { l with
    hd_pending := false
    pos := l.hd_final_resume
    line := l.hd_final_resume_line
    line_start := l.hd_final_resume_line_start
    had_space := false }

/-- The last token of an opener's line has been read by the first lexer, and
the second is behind the heredoc. -/
inductive BehindLine : Lexer → Lexer → Prop where
  | rest {l : Lexer} (code : l.InCode) (read : l.rest_read = true) : BehindLine l l.resumed
  | ended {l : Lexer} (ends : l.EndsHeredoc) (code : l.lexer_next.2.InCode)
      (alone : l.lexer_next.2.hd_rol_end ≤ l.lexer_next.2.hd_rol_start)
      (last : l.lexer_next.2.hd_pending = false) : BehindLine l.lexer_next.2 l.lexer_next.2

section
variable {l l' : Lexer}

theorem passed_behind_blanks (l : Lexer) : Passed l l.behind_blanks :=
  Passed.trans (.mk ..) (passed_skip_whitespace { l with had_space := false })

theorem resumed_pos (l : Lexer) : l.resumed.pos = l.hd_final_resume := l.passed_behind_blanks.hd_final_resume

theorem skip_between_eq (l : Lexer) :
    l.skip_between = if l.rest_read then l.resumed.skip_whitespace else l.behind_blanks := by
  have hpending : l.behind_blanks.hd_pending = l.hd_pending := l.passed_behind_blanks.hd_pending
  have hend : l.behind_blanks.hd_rol_end = l.hd_rol_end := l.passed_behind_blanks.hd_rol_end
  rw [rest_read, ← hpending, ← hend]
  rfl

end

theorem blank_line_comment (dot : Bool) (text : List Char) :
    blank_line dot .comment text = blank_line dot .blanks (text.dropWhile fun c => c ≠ '\n') := by
  induction text with
  | nil => rfl
  | cons c rest ih =>
    by_cases hc : c = '\n'
    · simp [hc, blank_line]
    · simpa [hc, blank_line] using ih

/-- A statement ends in front of this text. -/
def ends_here (text : List Char) : Bool := text.isEmpty || text.headD '\x00' = '\n'

/-- Skipping blanks ends at a line's end exactly when nothing else is on the
line. -/
theorem ends_here_skip_blanks (fuel : Nat) (l : Lexer) (h : l.ahead.length ≤ fuel) :
    ends_here (skip_blanks fuel l).ahead = blank_line l.prev_was_dot .blanks l.ahead := by
  induction fuel generalizing l with
  | zero =>
    have hnil : l.ahead = [] := List.eq_nil_of_length_eq_zero (Nat.le_zero.mp h)
    rw [skip_blanks, hnil]
    rfl
  | succ fuel ih =>
    rw [skip_blanks, at_end_eq]
    cases hahead : l.ahead with
    | nil => simp [hahead, ends_here, blank_line]
    | cons c rest =>
      rw [hahead, List.length_cons] at h
      have hpeek : l.peek_ch = c := by rw [peek_ch_eq, hahead]; rfl
      have hpeek2 : l.peek2 = rest.headD '\x00' := by rw [peek2_eq, hahead]; rfl
      have hnext : l.advance.ahead = rest := by rw [ahead_advance, hahead, List.tail_cons]
      simp only [List.isEmpty_cons, Bool.false_eq_true, if_false, hpeek, hpeek2, Bool.or_eq_true, Bool.and_eq_true,
        decide_eq_true_eq]
      have hgo {l' : Lexer} {text : List Char} (hpassed : Passed l l') (htext : l'.ahead = text)
          (hlen : text.length ≤ rest.length) :
          ends_here (skip_blanks fuel l').ahead = blank_line l.prev_was_dot .blanks text := by
        rw [← hpassed.prev_was_dot, ← htext]
        exact ih l' (by rw [htext]; omega)
      by_cases hblank : (c = ' ' ∨ c = '\t') ∨ c = '\x0d'
      · rw [if_pos hblank, hgo (l.passed_advance.spaced true) hnext le_rfl]
        rcases hblank with (rfl | rfl) | rfl <;> simp [blank_line]
      rw [if_neg hblank]
      by_cases hescape : c = '\\' ∧ rest.headD '\x00' = '\n'
      · obtain ⟨rfl, hhead⟩ := hescape
        cases rest with
        | nil => exact absurd hhead (by decide)
        | cons c' rest =>
          obtain rfl : c' = '\n' := hhead
          have hnext₂ : l.advance.advance.ahead = rest := by rw [ahead_advance, hnext, List.tail_cons]
          have hpassed := (l.passed_advance.trans (passed_advance _)).spaced true
          rw [if_pos ⟨rfl, rfl⟩, hgo hpassed hnext₂ (Nat.le_succ _)]
          simp [blank_line]
      rw [if_neg hescape]
      by_cases hcomment : c = '#'
      · have hskip : (l.advance_while (· ≠ '\n')).ahead = rest.dropWhile (· ≠ '\n') := by
          rw [ahead_advance_while, hahead, hcomment]
          rfl
        rw [if_pos hcomment, hgo ((l.passed_advance_while _).spaced true) hskip (List.dropWhile_suffix _).length_le,
          ← blank_line_comment, hcomment]
        simp [blank_line]
      rw [if_neg hcomment]
      by_cases hline : c = '\n' ∧ l.prev_was_dot = true
      · rw [if_pos hline]
        refine (hgo (l.passed_advance.placed _ _ true) hnext le_rfl).trans ?_
        rw [hline.1, hline.2]
        simp [blank_line]
      rw [if_neg hline, hahead]
      by_cases hnewline : c = '\n'
      · have hdot : l.prev_was_dot = false := by simpa [hnewline] using hline
        simp [ends_here, blank_line, hnewline, hdot]
      · cases rest with
        | nil => simp_all [ends_here, blank_line]
        | cons c' rest => simp_all [ends_here, blank_line]

theorem heredoc_continues (l : Lexer) (start line col : Nat) :
    (l.scan_heredoc start line col).1.kind.ends_statement = false := by
  simp only [scan_heredoc]
  split
  · split <;> rfl
  · rfl

theorem scan_here_at_opener {l : Lexer} (h : l.at_opener = true) :
    l.scan_here = l.advance.advance.scan_heredoc l.pos l.line (l.col_of l.pos) := by
  simp only [at_opener, Bool.and_eq_true, decide_eq_true_eq, Bool.not_eq_true'] at h
  obtain ⟨⟨⟨⟨hless, hshift⟩, hclass⟩, hopens⟩, -⟩ := h
  have hend : l.at_end = false := by
    rw [at_end_eq]
    cases hahead : l.ahead with
    | nil =>
      rw [peek_ch_eq, hahead] at hless
      exact absurd hless (by decide)
    | cons c rest => rfl
  have hbehind : l.advance.advance.preceded_by_class_keyword l.pos = false := by
    rw [preceded_by_class_keyword_src l _ (by simp), hclass]
  simp only [scan_here, hend, Bool.false_eq_true, if_false, hless, scan_char, scan_less, hshift, if_true, hbehind,
    hopens, Bool.not_false, Bool.and_self]

/-- A statement ends with the next token exactly where the text says so. -/
theorem scan_here_ends (l : Lexer) : l.scan_here.1.kind.ends_statement = ends_here l.ahead := by
  cases hend : l.at_end with
  | true =>
    have hnil : ends_here l.ahead = true := by simp [ends_here, ← at_end_eq, hend]
    rw [hnil, scan_here, hend]
    rfl
  | false =>
    have hhere : ends_here l.ahead = decide (l.peek_ch = '\n') := by simp [ends_here, ← at_end_eq, hend, peek_ch_eq]
    rw [hhere]
    by_cases hline : l.peek_ch = '\n'
    · simp only [scan_here, hend, hline, scan_char, Bool.false_eq_true, if_false]
      rfl
    · cases hopener : l.at_opener with
      | true => rw [scan_here_at_opener hopener, heredoc_continues, decide_eq_false hline]
      | false => rw [(l.scanned_here hend hline hopener).2, decide_eq_false hline]

/-- Behind the line that opens a heredoc a statement ends exactly when the text
behind the heredoc goes on with nothing on its line. -/
theorem separated_iff {l l' : Lexer} (h : BehindLine l l') :
    l.lexer_next.1.kind.ends_statement = true ↔ blank_line l'.prev_was_dot .blanks l'.ahead = true := by
  cases h with
  | @rest l code read =>
    have hskip := ends_here_skip_blanks _ l.resumed l.resumed.ahead_length.le
    rw [lexer_next_here code.not_peeked code.code, scan_here_ends, skip_between_eq, if_pos read, skip_whitespace, hskip]
  | @ended l ends code alone last =>
    have hread : l.lexer_next.2.rest_read = false := by rw [rest_read, last, Bool.false_and]
    have hskip := ends_here_skip_blanks _ { l.lexer_next.2 with had_space := false } (ahead_length _).le
    rw [lexer_next_here code.not_peeked code.code, scan_here_ends, skip_between_eq, hread]
    simp only [Bool.false_eq_true, if_false, behind_blanks, skip_whitespace, hskip]
    rfl

/-- The lexer behind the first tokens of a text. -/
def behind : Nat → String → Lexer
  | 0, text => lexer_init text.toList
  | n + 1, text => (behind n text).lexer_next.2

theorem blank_behind_heredoc_separates :
    ((behind 5 "x = <<A\na\nA\n\n-1").lexer_next.1.kind.ends_statement = true ↔
      blank_line (behind 5 "x = <<A\na\nA\n\n-1").prev_was_dot .blanks (behind 5 "x = <<A\na\nA\n\n-1").ahead = true) :=
  separated_iff (.ended (l := behind 4 "x = <<A\na\nA\n\n-1") (.inr ⟨by decide, by decide⟩)
    ⟨by decide, by decide⟩ (by decide) (by decide))

/-- What follows the heredoc of `x = <<A` continues the statement. -/
theorem statement_continues_behind_heredoc :
    ¬ ∀ l l' : Lexer, BehindLine l l' → l.lexer_next.1.kind.ends_statement = true := by
  intro h
  have hends := h (behind 5 "x = <<A\na\nA\n-1") _
    (.ended (l := behind 4 "x = <<A\na\nA\n-1") (.inr ⟨by decide, by decide⟩) ⟨by decide, by decide⟩ (by decide)
      (by decide))
  exact absurd hends (by decide)

end Lexer
end stoned
