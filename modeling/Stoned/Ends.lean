import Stoned.Program.Total
import Stoned.Settle

namespace stoned.Lexer

/-! The lexer comes to the end of every text. A heredoc makes it go back, but
never in front of the opener, and its positions are paid for there. -/

/-- What the text behind a position is worth: a character four times as much as
all that is behind it. -/
def worth (size pos : Nat) : Nat := 4 ^ (size - pos)

theorem worth_pos (size pos : Nat) : 0 < worth size pos := Nat.pow_pos (Nat.succ_pos 3)

theorem worth_le {size pos pos' : Nat} (h : pos ≤ pos') : worth size pos' ≤ worth size pos :=
  Nat.pow_le_pow_right (Nat.succ_pos 3) (Nat.sub_le_sub_left h size)

theorem worth_next {size pos pos' : Nat} (hpos : pos < size) (h : pos + 1 ≤ pos') :
    4 * worth size pos' ≤ worth size pos := by
  have hsplit : size - pos = (size - (pos + 1)) + 1 := by omega
  calc 4 * worth size pos' ≤ 4 * worth size (pos + 1) := Nat.mul_le_mul_left 4 (worth_le h)
    _ = worth size pos := by rw [worth, worth, hsplit, Nat.pow_succ']

variable (l : Lexer)

/-- The position where the lexer will resume behind a heredoc's line. -/
def pending : Nat := if l.hd_pending then worth l.len l.hd_final_resume else 0

/-- The positions a body is left for: the rest of its opener's line, and then
the text behind it. -/
def active : Nat := if l.hd_active then worth l.len l.hd_resume + worth l.len l.hd_rol_start else 0

/-- What lies ahead of the lexer. -/
def weight : Nat := worth l.len l.pos + (l.pending + l.active)

variable {l} {l' l'' : Lexer}

theorem Framed.len (h : Framed l l') : l'.len = l.len := congrArg List.length h.src
theorem Framed.pending (h : Framed l l') : l'.pending = l.pending := by cases h; rfl
theorem Framed.active (h : Framed l l') : l'.active = l.active := by cases h; rfl

theorem Framed.weight_le (h : Framed l l') (hpos : l.pos ≤ l'.pos) : l'.weight ≤ l.weight := by
  have hworth : worth l.len l'.pos ≤ worth l.len l.pos := worth_le hpos
  rw [weight, weight, h.pending, h.active, h.len]
  omega

/-- A token that leaves the heredoc as it was, and takes a character. -/
theorem Framed.weight_lt (h : Framed l l') (hend : l.at_end = false) (hpos : l.pos + 1 ≤ l'.pos) :
    l'.weight < l.weight := by
  have hworth := worth_next (l.lt_end hend) hpos
  have hpositive := worth_pos l.len l'.pos
  rw [weight, weight, h.pending, h.active, h.len]
  omega

/-- Behind a heredoc one or two positions are still to be read from. -/
theorem weight_leave_heredoc (l : Lexer) (resume line line_start : Nat) :
    (l.leave_heredoc resume line line_start).weight ≤
      worth l.len l.hd_rol_start + worth l.len resume + (l.pending + l.active) := by
  unfold leave_heredoc
  split
  · change worth l.len l.hd_rol_start + (worth l.len resume + l.active) ≤ _
    omega
  · change worth l.len resume + (l.pending + l.active) ≤ _
    omega

/-- Where the lexer resumes has been paid for. -/
theorem weight_resumed (h : l.rest_read = true) : l.resumed.weight ≤ l.weight := by
  have hpassed := l.passed_behind_blanks.framed
  have hpending : l.hd_pending = true := (Bool.and_eq_true_iff.mp h).1
  have hresumed : l.resumed.weight = worth l.len l.hd_final_resume + l.active := by
    rw [← hpassed.len, ← hpassed.hd_final_resume, ← hpassed.active]
    exact congrArg (worth _ _ + ·) (Nat.zero_add _)
  rw [hresumed, weight, pending, hpending, if_pos rfl]
  omega

theorem weight_skip_between (l : Lexer) : l.skip_between.weight ≤ l.weight := by
  rw [skip_between_eq]
  split
  case isTrue hread =>
    exact ((passed_skip_whitespace _).framed.weight_le (le_skip_whitespace _)).trans (weight_resumed hread)
  case isFalse =>
    have hpos : l.pos ≤ l.behind_blanks.pos := le_skip_whitespace { l with had_space := false }
    exact l.passed_behind_blanks.framed.weight_le hpos

/-! Openers. -/

theorem passed_terminator {term : List Char} {indent_ok : Bool} (h : l.terminator term indent_ok = some l') :
    Passed l l' ∧ l.pos ≤ l'.pos := by
  unfold terminator at h
  extract_lets indent after at h
  split at h
  · obtain rfl := Option.some.inj h
    have hafter : Passed l { l with pos := after } := .mk ..
    have hpos : l.pos ≤ after := by omega
    exact ⟨(hafter.trans (passed_advance_if ..)).trans (passed_advance_if ..),
      (hpos.trans (le_advance_if { l with pos := after } _)).trans (le_advance_if ..)⟩
  · cases h

/-- The body that begins here ends inside the text, and the text goes on no
further in front. -/
theorem find_terminator_spec (l : Lexer) (term : List Char) (indent_ok : Bool) (fuel : Nat) :
    (find_terminator term indent_ok fuel l).1 ≤ l.len ∧
      Passed l (find_terminator term indent_ok fuel l).2 ∧ l.pos ≤ (find_terminator term indent_ok fuel l).2.pos := by
  induction fuel generalizing l with
  | zero => exact ⟨le_rfl, .refl l, le_rfl⟩
  | succ fuel ih =>
    simp only [find_terminator]
    split
    case isTrue => exact ⟨le_rfl, .refl l, le_rfl⟩
    case isFalse hend =>
      split
      case h_1 l' hterm =>
        have hpassed := passed_terminator hterm
        exact ⟨(l.lt_end (by simpa using hend)).le, hpassed⟩
      case h_2 =>
        obtain ⟨hbound, hpassed, hpos⟩ := ih l.next_line
        exact ⟨hbound.trans_eq l.passed_next_line.framed.len, l.passed_next_line.trans hpassed,
          l.le_next_line.trans hpos⟩

/-- An opener has been read and the rest of its line noted, behind which the
body begins. -/
structure Opened (l l' : Lexer) : Prop where
  len : l'.len = l.len
  body_end : l'.hd_body_end = l.hd_body_end
  pending : l'.pending = l.pending
  active : l'.active ≤ l.active + worth l.len l'.hd_rol_start
  rest : l.pos + 1 ≤ l'.hd_rol_start
  here : l.pos + 1 ≤ l'.pos

theorem Opened.passed (h : Opened l l') (hpassed : Passed l' l'') (hpos : l'.pos ≤ l''.pos) : Opened l l'' where
  len := hpassed.framed.len.trans h.len
  body_end := hpassed.framed.hd_body_end.trans h.body_end
  pending := hpassed.framed.pending.trans h.pending
  active := by
    rw [hpassed.framed.active, hpassed.framed.hd_rol_start]
    exact h.active
  rest := by
    rw [hpassed.framed.hd_rol_start]
    exact h.rest
  here := h.here.trans hpos

theorem opened_mark (h : Framed l l') (hpos : l.pos + 1 ≤ l'.pos) : Opened l l'.mark_rest_of_line := by
  have hline : Passed l' (l'.line_end.advance_if (· = '\n')) :=
    (l'.passed_advance_while _).trans (passed_advance_if ..)
  have hbehind : l'.pos ≤ (l'.line_end.advance_if (· = '\n')).pos := l'.le_next_line
  have hframed := h.trans hline.framed
  refine ⟨hframed.len, hframed.hd_body_end, hframed.pending, ?_, hpos, hpos.trans hbehind⟩
  have hactive : l'.mark_rest_of_line.active =
      if l.hd_active then worth l.len l.hd_resume + worth l.len l'.pos else 0 := by
    rw [← hframed.len, ← hframed.hd_resume, ← hframed.hd_active]
    rfl
  have hrest : l'.mark_rest_of_line.hd_rol_start = l'.pos := rfl
  rw [hactive, hrest, active]
  split <;> omega

/-- Behind an opener at most three positions are still to be read from, and all
of them are behind it. -/
theorem Opened.weight_raw (h : Opened l l') (hend : l.at_end = false) (resume line line_start : Nat)
    (hresume : l.pos + 1 ≤ resume) : (l'.leave_heredoc resume line line_start).weight < l.weight := by
  have hleave := l'.weight_leave_heredoc resume line line_start
  have hrest := worth_next (l.lt_end hend) h.rest
  have hbehind := worth_next (l.lt_end hend) hresume
  have hpositive := worth_pos l.len resume
  have hactive := h.active
  have hweight : l.weight = worth l.len l.pos + (l.pending + l.active) := rfl
  rw [h.len, h.pending] at hleave
  omega

theorem at_opener_in_text (h : l.at_opener = true) : l.at_end = false := by
  simp only [at_opener, Bool.and_eq_true, decide_eq_true_eq] at h
  rw [at_end_eq]
  cases hahead : l.ahead with
  | nil =>
    have hless := h.1.1.1.1
    rw [peek_ch_eq, hahead] at hless
    exact absurd hless (by decide)
  | cons c rest => rfl

theorem framed_heredoc_style (l : Lexer) : Framed l l.heredoc_style.2 := by
  simp only [heredoc_style]
  split_ifs
  · exact l.framed_advance.trans (framed_advance _)
  · exact l.framed_advance
  · exact l.framed_advance
  · exact .refl l

theorem framed_heredoc_identifier (l : Lexer) (style : HeredocStyle) : Framed l (l.heredoc_identifier style).2 :=
  (l.framed_advance_while is_word).trans (framed_advance_if _ fun c => style.quote = some c)

theorem le_heredoc_identifier (l : Lexer) (style : HeredocStyle) : l.pos ≤ (l.heredoc_identifier style).2.pos :=
  (l.le_advance_while is_word).trans (le_advance_if _ fun c => style.quote = some c)

theorem leave_heredoc_frame (l : Lexer) (resume line line_start : Nat) :
    (l.leave_heredoc resume line line_start).hd_body_end = l.hd_body_end ∧
      (l.leave_heredoc resume line line_start).len = l.len := by
  unfold leave_heredoc
  split <;> exact ⟨rfl, rfl⟩

theorem weight_push (l : Lexer) (mode : LexMode) : (l.imode_push mode).weight = l.weight := by
  have hframed := l.framed_imode_push mode
  rw [weight, weight, hframed.pending, hframed.active, hframed.len, imode_push_pos]

/-- The lexer at the start of a body. -/
theorem begin_heredoc_weight (l behind : Lexer) (start line col body_end : Nat) (style : HeredocStyle) :
    let l' := (l.begin_heredoc start line col style body_end behind).2
    l'.weight = worth behind.len l.pos +
        (behind.pending + (worth behind.len behind.pos + worth behind.len behind.hd_rol_start)) ∧
      l'.hd_body_end = body_end ∧ l'.len = behind.len := by
  exact ⟨weight_push .., (framed_imode_push ..).hd_body_end, (framed_imode_push ..).len⟩

/-- An opener takes at least one character, and its heredoc is paid for. -/
theorem scan_opener (h : l.at_opener = true) (hbound : l.hd_body_end ≤ l.len) :
    l.scan_here.2.weight < l.weight ∧ l.scan_here.2.hd_body_end ≤ l.scan_here.2.len := by
  have hend := at_opener_in_text h
  have hbehind : l.pos + 1 ≤ l.advance.advance.pos := (advance_pos l).symm.le.trans (le_advance _)
  have hframed := l.framed_advance.trans l.advance.framed_advance
  rw [scan_here_at_opener h]
  simp only [at_opener, Bool.and_eq_true] at h
  generalize l.advance.advance = l₀ at h hbehind hframed
  simp only [scan_heredoc, h.2, if_true]
  generalize hstyle : l₀.heredoc_style.1 = style
  have hmark : Opened l (l₀.heredoc_style.2.heredoc_identifier style).2.mark_rest_of_line := by
    exact opened_mark ((hframed.trans l₀.framed_heredoc_style).trans (framed_heredoc_identifier ..))
      ((hbehind.trans l₀.le_heredoc_style).trans (le_heredoc_identifier ..))
  generalize (l₀.heredoc_style.2.heredoc_identifier style).2.mark_rest_of_line = body at hmark
  obtain ⟨hbody, hpassed, hpos⟩ := find_terminator_spec body (l₀.heredoc_style.2.heredoc_identifier style).1
    style.indent_ok (body.len - body.pos)
  generalize find_terminator (l₀.heredoc_style.2.heredoc_identifier style).1 style.indent_ok (body.len - body.pos)
    body = found at hbody hpassed hpos
  have hopened := hmark.passed hpassed hpos
  split
  · obtain ⟨hend', hlen⟩ := found.2.leave_heredoc_frame found.2.pos found.2.line found.2.line_start
    refine ⟨hopened.weight_raw hend _ _ _ hopened.here, ?_⟩
    change (found.2.leave_heredoc _ _ _).hd_body_end ≤ (found.2.leave_heredoc _ _ _).len
    rw [hend', hlen, hopened.body_end, hopened.len]
    exact hbound
  · obtain ⟨hweight, hend', hlen⟩ := body.begin_heredoc_weight found.2 l.pos l.line (l.col_of l.pos) found.1 style
    rw [hweight, hend', hlen, hopened.len]
    have hbound' : found.1 ≤ l.len := hbody.trans_eq hmark.len
    have hbody' := worth_next (l.lt_end hend) hmark.here
    have hrest := worth_next (l.lt_end hend) hopened.rest
    have hbehind' := worth_next (l.lt_end hend) hopened.here
    have hpositive := worth_pos l.len body.pos
    have hweight' : l.weight = worth l.len l.pos + (l.pending + l.active) := rfl
    rw [hopened.pending]
    exact ⟨by omega, hbound'⟩

/-! Tokens. -/

/-- Leaving a body is paid for by the body's own positions. -/
theorem scan_body_end (hactive : l.hd_active = true) (hend : l.after_indent.hd_body_end ≤ l.after_indent.pos)
    (hbound : l.hd_body_end ≤ l.len) :
    l.scan_heredoc_content.2.weight < l.weight ∧ l.scan_heredoc_content.2.hd_body_end ≤ l.scan_heredoc_content.2.len := by
  have hindent := l.framed_after_indent
  have hpositive := worth_pos l.len l.pos
  have hsum : l.weight =
      worth l.len l.pos + (l.pending + (worth l.len l.hd_resume + worth l.len l.hd_rol_start)) := by
    rw [weight, active, hactive, if_pos rfl]
  let left : Lexer := { l.after_indent.imode_pop with hd_active := false }
  have hscan : l.scan_heredoc_content.2 = left.leave_heredoc l.hd_resume l.after_indent.hd_resume_line
      l.after_indent.hd_resume_line_start := by
    rw [scan_heredoc_content_eq, ← hindent.hd_resume]
    simp only [hend, if_true]
    rfl
  have hleft : left.hd_rol_start = l.hd_rol_start ∧ left.len = l.len ∧ left.pending = l.pending ∧ left.active = 0 ∧
      left.hd_body_end = l.hd_body_end :=
    ⟨hindent.hd_rol_start, hindent.len, hindent.pending, rfl, hindent.hd_body_end⟩
  obtain ⟨hrest, hsize, hpending, hnone, hbody⟩ := hleft
  have hleave := left.weight_leave_heredoc l.hd_resume l.after_indent.hd_resume_line l.after_indent.hd_resume_line_start
  obtain ⟨hend', hlen⟩ := left.leave_heredoc_frame l.hd_resume l.after_indent.hd_resume_line
    l.after_indent.hd_resume_line_start
  rw [hrest, hsize, hpending, hnone] at hleave
  rw [hscan]
  refine ⟨by omega, ?_⟩
  rw [hend', hlen, hbody, hsize]
  exact hbound

/-- The lexer goes on: it has come nearer to the end of the text, or it has left
a mode there. -/
structure Falls (l l' : Lexer) : Prop where
  bounded : l'.hd_body_end ≤ l'.len
  falls : l'.weight < l.weight ∨
    (l'.weight ≤ l.weight ∧ l'.peeked = l.peeked ∧ l'.imode_depth < l.imode_depth)

theorem Framed.falls (h : Framed l l') (hbound : l.hd_body_end ≤ l.len) (hend : l.at_end = false)
    (hpos : l.pos + 1 ≤ l'.pos) : Falls l l' :=
  ⟨by rw [h.hd_body_end, h.len]; exact hbound, .inl (h.weight_lt hend hpos)⟩

/-- At the end of the text the modes are left one by one. -/
theorem falls_pop (hbound : l.hd_body_end ≤ l.len) (hmode : l.imode ≠ []) (c : Char) :
    Falls l (l.set_percent_close c).imode_pop := by
  refine ⟨hbound, .inr ⟨le_rfl, rfl, ?_⟩⟩
  have hlength : 0 < l.imode.length := List.length_pos_of_ne_nil hmode
  change l.imode.tail.length < l.imode.length
  rw [List.length_tail]
  omega

theorem imode_of_top {mode : LexMode} (h : l.imode_top = mode) (hmode : mode ≠ .normal) : l.imode ≠ [] := by
  rintro hnil
  rw [imode_top, hnil] at h
  exact hmode h.symm

theorem falls_string (hbound : l.hd_body_end ≤ l.len) (hmode : l.imode ≠ []) : Falls l l.scan_interp_str_content.2 := by
  cases hend : l.at_end with
  | true =>
    simp only [scan_interp_str_content, hend, Bool.true_or, if_true]
    exact falls_pop hbound hmode _
  | false => exact l.scanned_interp_str_content.1.falls hbound hend (l.lt_scan_interp_str_content hend)

theorem falls_regexp (hbound : l.hd_body_end ≤ l.len) (hmode : l.imode ≠ []) :
    Falls l l.scan_interp_regex_content.2 := by
  cases hend : l.at_end with
  | true =>
    simp only [scan_interp_regex_content, hend, Bool.not_true, Bool.false_and, Bool.false_eq_true, if_false, if_true]
    have hpop := falls_pop hbound hmode l.top_percent_close
    exact ⟨hpop.1, hpop.2⟩
  | false => exact l.scanned_interp_regex_content.1.falls hbound hend (l.lt_scan_interp_regex_content hend)

theorem falls_body (hbound : l.hd_body_end ≤ l.len) (hactive : l.hd_active = true) :
    Falls l l.scan_heredoc_content.2 := by
  by_cases hend : l.after_indent.hd_body_end ≤ l.after_indent.pos
  · obtain ⟨hweight, hbound'⟩ := scan_body_end hactive hend hbound
    exact ⟨hbound', .inl hweight⟩
  · have hinside : l.after_indent.pos < l.after_indent.hd_body_end := Nat.lt_of_not_le hend
    have hpos : l.pos < l.len := by
      rw [l.framed_after_indent.hd_body_end] at hinside
      exact (l.le_after_indent.trans_lt hinside).trans_le hbound
    exact (framed_body l hinside).falls hbound (by simpa [at_end] using hpos) (l.lt_body hinside)

/-- Code has ended, or a token is taken. -/
theorem falls_here (hbound : l.hd_body_end ≤ l.len) : l.scan_here.1.kind = .eof ∨ Falls l l.scan_here.2 := by
  cases hend : l.at_end with
  | true =>
    left
    rw [scan_here, hend]
    rfl
  | false =>
    right
    cases hopener : l.at_opener with
    | true =>
      obtain ⟨hweight, hbound'⟩ := scan_opener hopener hbound
      exact ⟨hbound', .inl hweight⟩
    | false => exact (l.framed_here hopener).falls hbound hend (l.lt_scan_here hend hopener)

theorem falls_code (hbound : l.hd_body_end ≤ l.len) :
    l.skip_between.scan_here.1.kind = .eof ∨ Falls l l.skip_between.scan_here.2 := by
  have hbetween := l.weight_skip_between
  obtain ⟨hd_pending, hpassed⟩ := l.passed_skip_between
  have hbound' : l.skip_between.hd_body_end ≤ l.skip_between.len := by
    rw [hpassed.framed.hd_body_end, hpassed.framed.len]
    exact hbound
  refine (falls_here hbound').imp_right fun h => ⟨h.bounded, ?_⟩
  refine h.falls.imp (fun hlt => hlt.trans_le hbetween) fun ⟨hweight, hpeeked, hdepth⟩ => ⟨hweight.trans hbetween, ?_, ?_⟩
  · exact hpeeked.trans hpassed.peeked
  · rw [imode_depth, imode_depth, ← l.skip_between_imode]
    exact hdepth

/-- Every scan ends the text or comes nearer to its end. -/
theorem falls_scan (hbound : l.hd_body_end ≤ l.len) : l.scan.1.kind = .eof ∨ Falls l l.scan.2 := by
  unfold scan
  split
  case h_1 hmode =>
    right
    split
    case isTrue hbody => exact falls_body hbound (Bool.and_eq_true_iff.mp hbody).1
    case isFalse => exact falls_string hbound (imode_of_top hmode (by decide))
  case h_2 hmode => exact .inr (falls_string hbound (imode_of_top hmode (by decide)))
  case h_3 hmode => exact .inr (falls_regexp hbound (imode_of_top hmode (by decide)))
  case h_4 => exact falls_code hbound
  case h_5 => exact falls_code hbound

/-- The modes that are open and the token that has been looked at. -/
def height (l : Lexer) : Nat := l.imode_depth + if l.peeked.isSome then 1 else 0

def measure (l : Lexer) : Nat ×ₗ Nat := toLex (l.weight, l.height)

theorem measure_lt (h : l'.weight ≤ l.weight) (hheight : l'.height < l.height) : l'.measure < l.measure := by
  rcases h.lt_or_eq with hlt | heq
  · exact Prod.Lex.toLex_lt_toLex.mpr (.inl hlt)
  · exact Prod.Lex.toLex_lt_toLex.mpr (.inr ⟨heq, hheight⟩)

theorem after_token_imode (l : Lexer) (t : Token) : (l.after_token t).imode = l.imode := by
  simp only [after_token]
  split
  · rfl
  · split <;> rfl

theorem after_token_peeked (l : Lexer) (t : Token) : (l.after_token t).peeked = l.peeked := by
  simp only [after_token]
  split
  · rfl
  · split <;> rfl

theorem after_token_measure (l : Lexer) (t : Token) : (l.after_token t).measure = l.measure := by
  have hframed := l.framed_after_token t
  have hweight : (l.after_token t).weight = l.weight := by
    rw [weight, weight, hframed.len, hframed.pending, hframed.active, after_token_pos]
  rw [measure, measure, hweight, height, height, imode_depth, imode_depth, after_token_imode, after_token_peeked]

theorem after_token_bounded (t : Token) (h : l.hd_body_end ≤ l.len) :
    (l.after_token t).hd_body_end ≤ (l.after_token t).len := by
  rw [(l.framed_after_token t).hd_body_end, (l.framed_after_token t).len]
  exact h

/-- A call of `lexer_next` returns the end of the text or comes nearer to it. -/
theorem lexer_next_falls (hbound : l.hd_body_end ≤ l.len) :
    l.lexer_next.1.kind = .eof ∨
      (l.lexer_next.2.hd_body_end ≤ l.lexer_next.2.len ∧ l.lexer_next.2.measure < l.measure) := by
  cases hpeeked : l.peeked with
  | some t =>
    right
    simp only [lexer_next, hpeeked]
    refine ⟨after_token_bounded t hbound, ?_⟩
    rw [after_token_measure]
    refine measure_lt le_rfl ?_
    rw [height, height, hpeeked]
    exact Nat.lt_succ_self _
  | none =>
    simp only [lexer_next, hpeeked]
    refine (falls_scan hbound).imp_right fun h => ⟨after_token_bounded _ h.bounded, ?_⟩
    rw [after_token_measure]
    rcases h.falls with hlt | ⟨hweight, hkept, hdepth⟩
    · exact Prod.Lex.toLex_lt_toLex.mpr (.inl hlt)
    · refine measure_lt hweight ?_
      rw [height, height, hkept]
      exact Nat.add_lt_add_right hdepth _

end stoned.Lexer

namespace stoned.lexer

open stoned.program

/-- The lexer behind the first `n` tokens of a text. -/
def tokens_read (src : List Char) (n : Nat) : Lexer := (fun l : Lexer => l.lexer_next.2)^[n] (lexer_init src)

/-- The tokens of every text come to its end, and no loop of the lexer is cut
off, wherever it is. -/
theorem lexer_terminates (src : List Char) :
    (∃ n, (tokens_read src n).lexer_next.1.kind = .eof) ∧ ∀ l : Lexer, l.LoopsSettle :=
  ⟨exists_iterate (fun l : Lexer => l.lexer_next.2) Lexer.measure (fun l => l.hd_body_end ≤ l.len)
      (fun l => l.lexer_next.1.kind = .eof) (fun _ => Lexer.lexer_next_falls) (lexer_init src) (Nat.zero_le _),
    fun _ => Lexer.loopsSettle _⟩

end stoned.lexer
