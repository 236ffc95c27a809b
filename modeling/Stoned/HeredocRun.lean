import Stoned.HeredocLaw

namespace stoned

/-! What the lexer does while it is inside a heredoc or on its opener's line. -/

namespace Lexer

/-- The next token neither opens a heredoc nor leaves a body or an opener's
line. -/
structure Quiet (l : Lexer) : Prop where
  no_opener : l.imode_top = .normal ∨ l.imode_top = .interp_expr → l.skip_between.at_opener = false
  on_line : l.imode_top = .normal ∨ l.imode_top = .interp_expr → l.rest_read = false
  no_end : l.at_body_end = false

/-- What the parser does with the lexer: it takes a token, looks at one or notes
a local variable. -/
inductive Step : Lexer → Lexer → Prop where
  | next {l : Lexer} (quiet : l.peeked = none → l.Quiet) : Step l l.lexer_next.2
  | peek {l : Lexer} (quiet : l.peeked = none → l.Quiet) : Step l l.lexer_peek.2
  | mark {l : Lexer} (name : String) : Step l (l.lexer_mark_local name)

/-- Any number of steps. -/
def Steps : Lexer → Lexer → Prop := Relation.ReflTransGen Step

section
variable {l l' : Lexer}

theorem framed_skip_indent (n : Nat) (l : Lexer) : Framed l (skip_indent n l) := by
  induction n generalizing l with
  | zero => exact .refl l
  | succ n ih =>
    rw [skip_indent]
    split
    · exact l.framed_advance.trans (ih _)
    · exact .refl l

theorem framed_at_bol (l : Lexer) (hd_at_bol : Bool) : Framed l { l with hd_at_bol } := .mk ..

theorem framed_after_indent (l : Lexer) : Framed l l.after_indent := by
  unfold after_indent
  split
  · exact (framed_skip_indent _ l).trans (framed_at_bol ..)
  · exact .refl l

theorem framed_heredoc_content (fuel : Nat) (l : Lexer) : Framed l (heredoc_content fuel l).2 := by
  induction fuel generalizing l with
  | zero => exact .refl l
  | succ fuel ih =>
    simp only [heredoc_content]
    split_ifs
    · exact .refl l
    · exact l.framed_advance
    · exact (l.framed_advance.trans (framed_advance _)).trans (ih _)
    · exact l.framed_advance.trans (framed_at_bol ..)
    · exact l.framed_advance.trans (ih _)

/-- The content of a body, or its end. -/
theorem scan_heredoc_content_eq (l : Lexer) :
    l.scan_heredoc_content =
      let l := l.after_indent
      if l.hd_body_end ≤ l.pos then
        ({ kind := .interp_end, line := l.line, col := l.col_of l.pos, len := 0 },
          ({ l.imode_pop with hd_active := false }).leave_heredoc l.hd_resume l.hd_resume_line l.hd_resume_line_start)
      else if l.peek_ch = '#' && l.pos + 1 < l.hd_body_end && l.peek2 = '{' then l.begin_interpolation
      else
        let (buf, l') := heredoc_content (l.hd_body_end - l.pos) l
        ({ kind := .interp_lit, line := l.line, col := l.col_of l.pos, len := buf.length
           sval := some (intern buf), slen := buf.length }, l') :=
  rfl

theorem framed_body (l : Lexer) (h : l.after_indent.pos < l.after_indent.hd_body_end) :
    Framed l l.scan_heredoc_content.2 := by
  rw [scan_heredoc_content_eq]
  simp only [Nat.not_le.mpr h, if_false]
  split
  · exact l.framed_after_indent.trans (scanned_begin_interpolation _).1
  · exact l.framed_after_indent.trans (framed_heredoc_content _ _)

theorem framed_here (l : Lexer) (hopener : l.at_opener = false) : Framed l l.scan_here.2 := by
  cases hend : l.at_end with
  | true =>
    rw [scan_here, hend]
    exact .refl l
  | false =>
    by_cases hline : l.peek_ch = '\n'
    · simp only [scan_here, hend, hline, scan_char, Bool.false_eq_true, if_false]
      exact l.framed_advance
    · exact (l.scanned_here hend hline hopener).1

theorem framed_quiet (h : l.Quiet) : Framed l l.scan.2 := by
  have hcode (hmode : l.imode_top = .normal ∨ l.imode_top = .interp_expr) : Framed l l.skip_between.scan_here.2 := by
    have hbetween : Framed l l.skip_between := by
      rw [skip_between_eq, h.on_line hmode]
      exact l.passed_behind_blanks.framed
    exact hbetween.trans (framed_here _ (h.no_opener hmode))
  unfold scan
  split
  · split
    case isTrue hbody =>
      refine framed_body l (Nat.lt_of_not_le fun hend => ?_)
      have hno_end := h.no_end
      simp_all [at_body_end, in_body]
    case isFalse => exact l.scanned_interp_str_content.1
  · exact l.scanned_interp_str_content.1
  · exact l.scanned_interp_regex_content.1
  · exact hcode (.inl ‹_›)
  · exact hcode (.inr ‹_›)

theorem framed_after_token (l : Lexer) (t : Token) : Framed l (l.after_token t) := by
  simp only [after_token]
  split
  · exact .mk ..
  · split <;> exact .mk ..

theorem framed_peeked (l : Lexer) (peeked : Option Token) : Framed l { l with peeked } := .mk ..

/-- What is known of a heredoc does not change in a step. -/
theorem Step.framed (h : Step l l') : Framed l l' := by
  cases h with
  | next quiet =>
    cases hpeeked : l.peeked with
    | some t =>
      simp only [lexer_next, hpeeked]
      exact (l.framed_peeked none).trans (framed_after_token ..)
    | none =>
      simp only [lexer_next, hpeeked]
      exact (framed_quiet (quiet hpeeked)).trans (framed_after_token ..)
  | peek quiet =>
    cases hpeeked : l.peeked with
    | some t =>
      simp only [lexer_peek, hpeeked]
      exact .refl l
    | none =>
      simp only [lexer_peek, hpeeked]
      exact (framed_quiet (quiet hpeeked)).trans (framed_peeked ..)
  | mark name =>
    unfold lexer_mark_local
    split
    · exact .refl l
    · exact .mk ..

theorem Steps.framed (h : Steps l l') : Framed l l' := by
  induction h with
  | refl => exact .refl l
  | tail _ hstep ih => exact ih.trans hstep.framed

end

/-- The lexer goes on behind a heredoc, whose opener's line goes on between two
positions and which ends in front of `resume`: with the rest of the line, in
its place, and then at `resume`. -/
structure GoesOn (l : Lexer) (rest_start rest_end resume : Nat) : Prop where
  at_once : rest_end ≤ rest_start → l.pos = resume
  in_place : rest_start < rest_end → l.pos = rest_start
  then_resumes : rest_start < rest_end → ∀ l', Steps l l' → l'.resumed.pos = resume ∧
    l'.skip_between = if rest_end ≤ l'.behind_blanks.pos then l'.resumed.skip_whitespace else l'.behind_blanks

theorem leave_heredoc_pending (l : Lexer) (resume line line_start : Nat) (h : l.hd_rol_start < l.hd_rol_end) :
    (l.leave_heredoc resume line line_start).hd_pending = true ∧
      (l.leave_heredoc resume line line_start).hd_final_resume = resume ∧
      (l.leave_heredoc resume line line_start).hd_rol_end = l.hd_rol_end ∧
      (l.leave_heredoc resume line line_start).pos = l.hd_rol_start := by
  simp [leave_heredoc, h]

/-- Leaving a heredoc, and what the next tokens are read from. -/
theorem goesOn_leave_heredoc {l l' : Lexer} {resume line line_start : Nat}
    (hframed : Framed (l.leave_heredoc resume line line_start) l')
    (hpos : l'.pos = (l.leave_heredoc resume line line_start).pos) :
    l'.GoesOn l.hd_rol_start l.hd_rol_end resume := by
  refine ⟨fun hdone => ?_, fun hleft => ?_, fun hleft l'' hsteps => ?_⟩
  · rw [hpos, leave_heredoc, if_neg (Nat.not_lt.mpr hdone)]
  · rw [hpos, (l.leave_heredoc_pending resume line line_start hleft).2.2.2]
  · obtain ⟨hpending, hresume, hend, -⟩ := l.leave_heredoc_pending resume line line_start hleft
    have hframed' := hframed.trans hsteps.framed
    have hread : l''.rest_read = decide (l.hd_rol_end ≤ l''.behind_blanks.pos) := by
      rw [rest_read, hframed'.hd_pending, hpending, hframed'.hd_rol_end, hend, Bool.true_and]
    rw [resumed_pos, hframed'.hd_final_resume, hresume, skip_between_eq, hread]
    simp only [decide_eq_true_eq, true_and]

end Lexer
end stoned
