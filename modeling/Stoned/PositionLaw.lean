import Stoned.Nesting

namespace stoned

/-! The lines and columns of tokens. -/

/-- The line of a position begins here. -/
structure BeginsLine (src : List Char) (line_start pos : Nat) : Prop where
  le : line_start ≤ pos
  behind : line_start = 0 ∨ src[line_start - 1]? = some '\n'
  same : ∀ i, line_start ≤ i → i < pos → src[i]? ≠ some '\n'

/-- A position's line, counted from 1, and where it begins. -/
structure TextPlace (src : List Char) (pos line line_start : Nat) : Prop where
  line : line = (src.take pos).count '\n' + 1
  begins : BeginsLine src line_start pos

/-- The law: a token's line is one more than the newlines in front of it, and its
column one more than the distance from the beginning of its line. -/
structure Token.At (src : List Char) (pos : Nat) (t : Token) : Prop where
  line : t.line = (src.take pos).count '\n' + 1
  col : ∃ line_start, BeginsLine src line_start pos ∧ t.col = pos - line_start + 1

section places
variable {src : List Char} {pos line line_start : Nat}

theorem count_take_succ (src : List Char) (pos : Nat) :
    (src.take (pos + 1)).count '\n' = (src.take pos).count '\n' + if src[pos]? = some '\n' then 1 else 0 := by
  rw [List.take_add_one, List.count_append]
  congr 1
  cases src[pos]? with
  | none => rfl
  | some c =>
    by_cases hc : c = '\n'
    · rw [hc]
      rfl
    · simp [hc]

/-- Behind the end of a line. -/
theorem TextPlace.next_line (h : TextPlace src pos line line_start) (hline : src[pos]? = some '\n') :
    TextPlace src (pos + 1) (line + 1) (pos + 1) := by
  refine ⟨?_, Nat.le_refl _, .inr hline, fun i hle hlt => absurd hle (Nat.not_le.mpr hlt)⟩
  rw [count_take_succ, if_pos hline, h.line]

theorem TextPlace.next (h : TextPlace src pos line line_start) (hline : src[pos]? ≠ some '\n') :
    TextPlace src (pos + 1) line line_start := by
  refine ⟨?_, Nat.le_succ_of_le h.begins.le, h.begins.behind, fun i hle hlt => ?_⟩
  · rw [count_take_succ, if_neg hline, Nat.add_zero, h.line]
  · obtain hlt | rfl := Nat.lt_succ_iff_lt_or_eq.mp hlt
    · exact h.begins.same i hle hlt
    · exact hline

/-- Over characters of which none ends a line. -/
theorem TextPlace.jump (h : TextPlace src pos line line_start) (count : Nat)
    (hline : ∀ i < count, src[pos + i]? ≠ some '\n') : TextPlace src (pos + count) line line_start := by
  induction count with
  | zero => exact h
  | succ count ih => exact (ih fun i hi => hline i (Nat.lt_succ_of_lt hi)).next (hline count (Nat.lt_succ_self _))

theorem place_start (src : List Char) : TextPlace src 0 1 0 := ⟨rfl, Nat.le_refl 0, .inl rfl, nofun⟩

end places

namespace Lexer

/-- The lexer knows the line of its position and of all positions to which it
will go back. -/
structure Placed (src : List Char) (l : Lexer) : Prop where
  source : l.src = src
  here : TextPlace src l.pos l.line l.line_start
  rest : l.hd_rol_start < l.hd_rol_end → TextPlace src l.hd_rol_start l.hd_rol_line l.hd_rol_line_start
  resume : l.hd_active = true → TextPlace src l.hd_resume l.hd_resume_line l.hd_resume_line_start
  final : l.hd_pending = true → TextPlace src l.hd_final_resume l.hd_final_resume_line l.hd_final_resume_line_start

section moves
variable {src : List Char} {l l' : Lexer}

theorem placed_init (src : List Char) : Placed src (lexer_init src) :=
  ⟨rfl, place_start src, fun h => absurd h (Nat.lt_irrefl 0), nofun, nofun⟩

theorem peek_newline : l.peek_ch = '\n' ↔ l.src[l.pos]? = some '\n' := by
  rw [peek_ch, char_at, List.getD_eq_getElem?_getD]
  cases l.src[l.pos]? with
  | none => exact ⟨by rintro ⟨⟩, by rintro ⟨⟩⟩
  | some c => exact Option.some_inj.symm

theorem Placed.token (h : Placed src l) {t : Token} (hline : t.line = l.line) (hcol : t.col = l.col_of l.pos) :
    t.At src l.pos :=
  ⟨hline.trans h.here.line, l.line_start, h.here.begins, hcol⟩

theorem Placed.advance (h : Placed src l) : Placed src l.advance := by
  unfold Lexer.advance
  split
  case isTrue hline =>
    rw [peek_newline, h.source] at hline
    exact ⟨h.source, h.here.next_line hline, h.rest, h.resume, h.final⟩
  case isFalse hline =>
    rw [peek_newline, h.source] at hline
    exact ⟨h.source, h.here.next hline, h.rest, h.resume, h.final⟩

theorem Moved.placed (h : Moved l l') (hl : Placed src l) : Placed src l' := by
  induction h with
  | refl => exact hl
  | advance _ ih => exact ih.advance
  | expect _ _ _ _ ih => exact ⟨ih.source, ih.here, ih.rest, ih.resume, ih.final⟩
  | top _ _ _ ih => exact ⟨ih.source, ih.here, ih.rest, ih.resume, ih.final⟩
  | close _ _ ih => exact ⟨ih.source, ih.here, ih.rest, ih.resume, ih.final⟩

theorem Placed.push (h : Placed src l) (mode : LexMode) : Placed src (l.imode_push mode) := by
  unfold imode_push
  split
  · exact ⟨h.source, h.here, h.rest, h.resume, h.final⟩
  · exact h

theorem Turned.placed {turn : Turn} (h : Turned l turn l') (hl : Placed src l) : Placed src l' := by
  cases h with
  | stays hmoved => exact hmoved.placed hl
  | opens mode hmoved hbehind => exact hbehind.placed ((hmoved.placed hl).push mode)
  | closes hmoved _ =>
    have hpopped := hmoved.placed hl
    exact ⟨hpopped.source, hpopped.here, hpopped.rest, hpopped.resume, hpopped.final⟩

theorem Placed.after_token (h : Placed src l) (t : Token) : Placed src (l.after_token t) := by
  obtain ⟨state, prev_was_dot, after_def, heq⟩ := l.after_token_frame t
  rw [heq]
  exact ⟨h.source, h.here, h.rest, h.resume, h.final⟩

theorem Placed.peek (h : Placed src l) (peeked : Option Token) : Placed src ({ l with peeked } : Lexer) :=
  ⟨h.source, h.here, h.rest, h.resume, h.final⟩

theorem Placed.mark (h : Placed src l) (name : String) : Placed src (l.lexer_mark_local name) := by
  unfold lexer_mark_local
  split
  · exact h
  · exact ⟨h.source, h.here, h.rest, h.resume, h.final⟩

end moves

/-! ### Blanks -/

end Lexer

/-- What stands behind blanks, escaped line ends and comments. -/
def behind_skipped : Skipped → List Char → List Char
  | _, [] => []
  | .blanks, c :: rest =>
    if c = ' ' || c = '\t' || c = '\x0d' then behind_skipped .blanks rest
    else if c = '#' then behind_skipped .comment rest
    else if c = '\\' && rest.headD '\x00' = '\n' then behind_skipped .escape rest
    else c :: rest
  | .comment, c :: rest => if c = '\n' then c :: rest else behind_skipped .comment rest
  | .escape, _ :: rest => behind_skipped .blanks rest

/-- A line ends in front of the next token. -/
def line_ends (text : List Char) : Bool := (behind_skipped .blanks text).head? = some '\n'

theorem behind_comment (text : List Char) :
    behind_skipped .comment text = behind_skipped .blanks (text.dropWhile (· ≠ '\n')) := by
  induction text with
  | nil => rfl
  | cons c rest ih =>
    by_cases hc : c = '\n'
    · simp [hc, behind_skipped]
    · simpa [hc, behind_skipped] using ih

namespace Lexer

/-- A step behind a dot that passes over the end of a line. At the end of an
opener's line what is passed over there does not count. -/
def crosses_line (l : Lexer) : Bool :=
  l.peeked.isNone && (l.imode_top = .normal || l.imode_top = .interp_expr) && l.prev_was_dot &&
    line_ends (if l.rest_read then l.resumed else l).ahead

/-- Where no line ends behind a dot, blanks are passed over character by
character. -/
theorem moved_skip_blanks (fuel : Nat) (l : Lexer) (h : l.prev_was_dot = true → line_ends l.ahead = false) :
    Moved l (skip_blanks fuel l) := by
  induction fuel generalizing l with
  | zero => exact .refl
  | succ fuel ih =>
    rw [skip_blanks, at_end_eq]
    cases hahead : l.ahead with
    | nil => exact .refl
    | cons c rest =>
      rw [hahead] at h
      have hpeek : l.peek_ch = c := by rw [peek_ch_eq, hahead]; rfl
      have hpeek2 : l.peek2 = rest.headD '\x00' := by rw [peek2_eq, hahead]; rfl
      have hnext : l.advance.ahead = rest := by rw [ahead_advance, hahead, List.tail_cons]
      -- what is passed over does not change where the blanks end
      have hgo {l' : Lexer} (hmoved : Moved l l') (hpassed : Passed l l')
          (hsame : line_ends l'.ahead = line_ends (c :: rest)) :
          Moved l (skip_blanks fuel { l' with had_space := true }) := by
        refine (hmoved.expect l'.state true l'.prev_was_dot).trans (ih _ fun hdot => ?_)
        exact hsame.trans (h (hpassed.prev_was_dot ▸ hdot))
      simp only [List.isEmpty_cons, Bool.false_eq_true, if_false, hpeek, hpeek2]
      split
      case isTrue hblank =>
        refine hgo l.moved_advance l.passed_advance ?_
        rw [hnext, line_ends, line_ends, behind_skipped, if_pos hblank]
      case isFalse hblank =>
        split
        case isTrue hescape =>
          refine hgo l.moved_advance.advance (l.passed_advance.trans (passed_advance _)) ?_
          obtain ⟨hc, hhead⟩ := Bool.and_eq_true_iff.mp hescape
          cases rest with
          | nil => exact absurd hhead (by decide)
          | cons c' rest =>
            have hcomment : ¬ decide (c = '#') = true := by
              rw [of_decide_eq_true hc]
              decide
            rw [ahead_advance, hnext, List.tail_cons, line_ends, line_ends, behind_skipped, if_neg hblank,
              if_neg (by simpa using hcomment), if_pos hescape, behind_skipped]
        case isFalse hescape =>
          split
          case isTrue hcomment =>
            refine hgo (l.moved_advance_while _) (l.passed_advance_while _) ?_
            rw [ahead_advance_while, hahead, hcomment, line_ends, line_ends, behind_skipped]
            simp only [Char.reduceEq, decide_false, Bool.or_self, Bool.false_eq_true, if_false, if_true, behind_comment]
            rfl
          case isFalse hcomment =>
            split
            case isTrue hline =>
              obtain ⟨hc, hdot⟩ := Bool.and_eq_true_iff.mp hline
              have hends := h hdot
              rw [of_decide_eq_true hc, line_ends, behind_skipped] at hends
              simp at hends
            case isFalse => exact .refl

section blanks
variable {src : List Char} {l : Lexer}

theorem Placed.skip_whitespace (h : Placed src l) (had_space : Bool)
    (hline : l.prev_was_dot = true → line_ends l.ahead = false) : Placed src ({ l with had_space } : Lexer).skip_whitespace := by
  have hmoved : Moved l { l with had_space } := Moved.refl.expect l.state had_space l.prev_was_dot
  exact (hmoved.trans (moved_skip_blanks _ _ hline)).placed h

theorem Placed.skip_between (h : Placed src l) (hpeeked : l.peeked = none)
    (hcode : l.imode_top = .normal ∨ l.imode_top = .interp_expr) (hcross : l.crosses_line = false) :
    Placed src l.skip_between := by
  have hline : l.prev_was_dot = true → line_ends (if l.rest_read then l.resumed else l).ahead = false := by
    intro hdot
    simpa [crosses_line, hpeeked, hcode, hdot] using hcross
  rw [skip_between_eq]
  split
  case isTrue hread =>
    have hpassed := l.passed_behind_blanks
    have hresumed : Placed src l.resumed := by
      rw [rest_read, Bool.and_eq_true] at hread
      unfold resumed
      generalize l.behind_blanks = l' at hpassed
      cases hpassed
      exact ⟨h.source, h.final hread.1, h.rest, h.resume, by rintro ⟨⟩⟩
    rw [if_pos hread] at hline
    refine hresumed.skip_whitespace l.resumed.had_space fun hdot => hline ?_
    rw [← hdot]
    exact hpassed.prev_was_dot.symm
  case isFalse hread =>
    rw [if_neg hread] at hline
    exact h.skip_whitespace false hline

end blanks

/-! ### Heredocs -/

section heredocs
variable {src : List Char} {l : Lexer}

theorem Placed.advance_if (h : Placed src l) (p : Char → Bool) : Placed src (l.advance_if p) := (l.moved_advance_if p).placed h

theorem Placed.terminator (h : Placed src l) {term : List Char} (hterm : '\n' ∉ term) {indent_ok : Bool} {l' : Lexer}
    (hfound : l.terminator term indent_ok = some l') : Placed src l' := by
  rw [Lexer.terminator] at hfound
  generalize hindent : (l.src.drop l.pos).takeWhile is_blank = indent at hfound
  split_ifs at hfound with hends
  obtain rfl := Option.some.inj hfound
  refine (Placed.advance_if ?_ _).advance_if _
  have hahead : (indent ++ term) <+: l.src.drop l.pos := by
    have hprefix := List.isPrefixOf_iff_prefix.mp (Bool.and_eq_true_iff.mp (Bool.and_eq_true_iff.mp hends).1).1
    have hsplit := List.takeWhile_append_dropWhile (p := is_blank) (l := l.src.drop l.pos)
    rw [← List.drop_drop, ← hsplit, hindent, List.drop_left] at hprefix
    rw [← hsplit, hindent]
    exact (List.prefix_append_right_inj _).mpr hprefix
  have hnone : '\n' ∉ indent ++ term := by
    rw [List.mem_append, not_or]
    refine ⟨fun hmem => ?_, hterm⟩
    have hblank := List.all_eq_true.mp (List.all_takeWhile (l := l.src.drop l.pos) (p := is_blank)) '\n'
    rw [hindent] at hblank
    exact absurd (hblank hmem) (by decide)
  refine ⟨h.source, ?_, h.rest, h.resume, h.final⟩
  have hjump := h.here.jump (indent ++ term).length fun i hi hline => ?_
  · rw [List.length_append, ← Nat.add_assoc] at hjump
    exact hjump
  · obtain ⟨behind, hbehind⟩ := hahead
    rw [← List.getElem?_drop, ← h.source, ← hbehind, List.getElem?_append_left hi] at hline
    exact hnone (List.mem_of_getElem? hline)

theorem placed_find_terminator {term : List Char} (hterm : '\n' ∉ term) (indent_ok : Bool) (fuel : Nat) (h : Placed src l) :
    Placed src (find_terminator term indent_ok fuel l).2 := by
  induction fuel generalizing l with
  | zero => exact h
  | succ fuel ih =>
    rw [find_terminator]
    split
    · exact h
    · split
      case h_1 l' hfound => exact h.terminator hterm hfound
      case h_2 => exact ih (((l.moved_advance_while _).placed h).advance_if _)

theorem opener_no_newline (l : Lexer) : '\n' ∉ l.opener.1 := by
  intro hmem
  simp only [opener, heredoc_identifier, slice] at hmem
  generalize l.advance.advance.heredoc_style.2 = l' at hmem
  have hword : (l'.src.drop l'.pos).take ((l'.advance_while is_word).pos - l'.pos) = l'.ahead.takeWhile is_word := by
    rw [pos_advance_while, Nat.add_sub_cancel_left]
    exact (List.prefix_iff_eq_take.mp (List.takeWhile_prefix is_word)).symm
  rw [hword] at hmem
  exact absurd (List.all_eq_true.mp List.all_takeWhile '\n' hmem) (by decide)

theorem moved_opener (l : Lexer) : Moved l l.opener.2 := by
  have hstyle := l.moved_advance.advance.trans (moved_heredoc_style _)
  simp only [opener, heredoc_identifier]
  exact (hstyle.trans (moved_advance_while ..)).trans (moved_advance_if ..)

theorem Placed.mark_rest_of_line (h : Placed src l) : Placed src l.mark_rest_of_line := by
  have hnext := ((l.moved_advance_while (· ≠ '\n')).placed h).advance_if (· = '\n')
  exact ⟨hnext.source, hnext.here, fun _ => h.here, hnext.resume, hnext.final⟩

theorem Placed.leave_heredoc {line line_start resume : Nat} (h : Placed src l) (hresume : TextPlace src resume line line_start) :
    Placed src (l.leave_heredoc resume line line_start) := by
  unfold Lexer.leave_heredoc
  split
  case isTrue hrest => exact ⟨h.source, h.rest hrest, h.rest, h.resume, fun _ => hresume⟩
  case isFalse => exact ⟨h.source, hresume, h.rest, h.resume, h.final⟩

theorem Placed.at_depth (h : Placed src l) (hd_imode_depth : Nat) : Placed src ({ l with hd_imode_depth } : Lexer) :=
  ⟨h.source, h.here, h.rest, h.resume, h.final⟩

theorem Placed.begin_heredoc {behind : Lexer} (h : Placed src l) (hbehind : Placed src behind)
    (start line col : Nat) (style : HeredocStyle) (body_end : Nat) :
    Placed src (l.begin_heredoc start line col style body_end behind).2 := by
  simp only [Lexer.begin_heredoc]
  refine Placed.at_depth (Placed.push ?_ _) _
  exact ⟨hbehind.source, h.here, hbehind.rest, fun _ => hbehind.here, hbehind.final⟩

/-- Behind an opener the lexer knows where the body begins, and where it goes on
behind it. -/
theorem Placed.scan_opener (h : Placed src l) (hopener : l.at_opener = true) : Placed src l.scan_here.2 := by
  have hline : Placed src l.behind_line := (l.moved_opener.placed h).mark_rest_of_line
  have hfound : Placed src l.body_found.2 := placed_find_terminator l.opener_no_newline _ _ hline
  rw [scan_at_opener_eq hopener]
  generalize l.body_found = found at hfound
  generalize l.behind_line = body at hline
  dsimp only
  split
  · exact hfound.leave_heredoc hfound.here
  · exact hline.begin_heredoc hfound ..

theorem moved_skip_indent (n : Nat) (l : Lexer) : Moved l (skip_indent n l) := by
  induction n generalizing l with
  | zero => exact .refl
  | succ n ih =>
    rw [skip_indent]
    split
    · exact l.moved_advance.trans (ih _)
    · exact .refl

theorem Placed.at_bol (h : Placed src l) (hd_at_bol : Bool) : Placed src ({ l with hd_at_bol } : Lexer) :=
  ⟨h.source, h.here, h.rest, h.resume, h.final⟩

theorem Placed.after_indent (h : Placed src l) : Placed src l.after_indent := by
  unfold Lexer.after_indent
  split
  · exact ((moved_skip_indent _ l).placed h).at_bol false
  · exact h

theorem Placed.heredoc_content (fuel : Nat) (h : Placed src l) : Placed src (heredoc_content fuel l).2 := by
  induction fuel generalizing l with
  | zero => exact h
  | succ fuel ih =>
    simp only [Lexer.heredoc_content]
    split_ifs
    · exact h
    · exact h.advance
    · exact ih h.advance.advance
    · exact h.advance.at_bol true
    · exact ih h.advance

end heredocs

/-! ### Tokens -/

/-- Where the next token begins. -/
def token_start (l : Lexer) : Nat :=
  match l.imode_top with
  | .interp_str => if l.hd_active && l.imode_depth = l.hd_imode_depth then l.after_indent.pos else l.pos
  | .interp_backtick | .interp_regex => l.pos
  | .normal | .interp_expr => l.skip_between.pos

/-- What the parser does with the lexer: it takes a token, looks at one or notes
a local variable. No token is read over the end of a line behind a dot. -/
inductive Follows : Lexer → Lexer → Prop where
  | next {l : Lexer} (stays : l.crosses_line = false) : Follows l l.lexer_next.2
  | peek {l : Lexer} (stays : l.crosses_line = false) : Follows l l.lexer_peek.2
  | mark {l : Lexer} (name : String) : Follows l (l.lexer_mark_local name)

/-- The lexer after any number of such steps. -/
def Follow (src : List Char) : Lexer → Prop := Relation.ReflTransGen Follows (lexer_init src)

/-- A token that has been read from the text, at its place. -/
def ReadAt (src : List Char) (t : Token) : Prop :=
  ∃ l, Follow src l ∧ l.peeked = none ∧ t = l.scan.1 ∧ t.At src l.token_start

section tokens
variable {l l' : Lexer} {src : List Char}

theorem Placed.stepped (h : Placed src l) {r : Scan} (hstepped : Stepped l.line (l.col_of l.pos) l r) :
    r.1.At src l.pos ∧ Placed src r.2 :=
  ⟨h.token hstepped.line hstepped.col, hstepped.turned.placed h⟩

theorem Placed.scan_here (h : Placed src l) : l.scan_here.1.At src l.pos ∧ Placed src l.scan_here.2 := by
  cases hend : l.at_end with
  | true =>
    rw [Lexer.scan_here, hend]
    exact ⟨h.token rfl rfl, h⟩
  | false =>
    by_cases hline : l.peek_ch = '\n'
    · simp only [Lexer.scan_here, hend, hline, scan_char, Bool.false_eq_true, if_false]
      exact ⟨h.token rfl rfl, h.advance⟩
    · cases hopener : l.at_opener with
      | true =>
        refine ⟨?_, h.scan_opener hopener⟩
        rw [scan_at_opener_eq hopener]
        dsimp only
        split
        · exact h.token rfl rfl
        · exact h.token rfl rfl
      | false => exact h.stepped (l.stepped_here hend hline hopener)

theorem Placed.scan_heredoc_content (h : Placed src l) (hactive : l.hd_active = true) :
    l.scan_heredoc_content.1.At src l.after_indent.pos ∧ Placed src l.scan_heredoc_content.2 := by
  have hindent := h.after_indent
  have hframed := l.framed_after_indent
  have hresume := hindent.resume (hframed.hd_active.trans hactive)
  rw [scan_heredoc_content_eq]
  dsimp only
  split
  · refine ⟨hindent.token rfl rfl, Placed.leave_heredoc ?_ hresume⟩
    exact ⟨hindent.source, hindent.here, hindent.rest, nofun, hindent.final⟩
  · split
    · exact hindent.stepped (stepped_begin_interpolation _)
    · exact ⟨hindent.token rfl rfl, hindent.heredoc_content _⟩

/-- The next token is at its place, and the lexer behind it knows its own. -/
theorem Placed.scan (h : Placed src l) (hpeeked : l.peeked = none) (hstays : l.crosses_line = false) :
    l.scan.1.At src l.token_start ∧ Placed src l.scan.2 := by
  have hcode (hmode : l.imode_top = .normal ∨ l.imode_top = .interp_expr) :
      l.skip_between.scan_here.1.At src l.skip_between.pos ∧ Placed src l.skip_between.scan_here.2 := (h.skip_between hpeeked hmode hstays).scan_here
  unfold Lexer.scan token_start
  cases hmode : l.imode_top with
  | interp_str =>
    dsimp only
    split
    case isTrue hbody => exact h.scan_heredoc_content (Bool.and_eq_true_iff.mp hbody).1
    case isFalse => exact h.stepped (l.stepped_interp_str_content (hmode.trans_ne (by decide)))
  | interp_backtick => exact h.stepped (l.stepped_interp_str_content (hmode.trans_ne (by decide)))
  | interp_regex => exact h.stepped (l.stepped_interp_regex_content (hmode.trans_ne (by decide)))
  | normal => exact hcode (.inl hmode)
  | interp_expr => exact hcode (.inr hmode)

/-- What holds in every state of a run. -/
structure Positioned (src : List Char) (l : Lexer) : Prop where
  placed : Placed src l
  peeked : ∀ t, l.peeked = some t → ReadAt src t

theorem Placed.readAt (h : Placed src l) (hfollow : Follow src l) (hpeeked : l.peeked = none)
    (hstays : l.crosses_line = false) : ReadAt src l.scan.1 :=
  ⟨l, hfollow, hpeeked, rfl, (h.scan hpeeked hstays).1⟩

theorem Positioned.token (h : Positioned src l) (hfollow : Follow src l) (hstays : l.crosses_line = false) :
    ReadAt src l.lexer_next.1 ∧ l.lexer_peek.1 = l.lexer_next.1 := by
  cases hpeeked : l.peeked with
  | some t =>
    simp only [lexer_next, lexer_peek, hpeeked]
    exact ⟨h.peeked t hpeeked, trivial⟩
  | none =>
    simp only [lexer_next, lexer_peek, hpeeked]
    exact ⟨h.placed.readAt hfollow hpeeked hstays, trivial⟩

/-- What one step preserves. -/
theorem Positioned.follows (h : Positioned src l) (hfollow : Follow src l) (hstep : Follows l l') : Positioned src l' := by
  cases hstep with
  | next stays =>
    cases hpeeked : l.peeked with
    | some t =>
      simp only [lexer_next, hpeeked]
      refine ⟨(h.placed.peek none).after_token t, fun t' ht' => ?_⟩
      rw [after_token_peeked] at ht'
      cases ht'
    | none =>
      have hplaced := (h.placed.scan hpeeked stays).2
      have hnone := l.scan_effect.peeked.trans hpeeked
      simp only [lexer_next, hpeeked]
      refine ⟨hplaced.after_token _, fun t' ht' => ?_⟩
      rw [after_token_peeked, hnone] at ht'
      cases ht'
  | peek stays =>
    cases hpeeked : l.peeked with
    | some t =>
      simp only [lexer_peek, hpeeked]
      exact h
    | none =>
      simp only [lexer_peek, hpeeked]
      refine ⟨(h.placed.scan hpeeked stays).2.peek _, fun t ht => ?_⟩
      obtain rfl := Option.some.inj ht
      exact h.placed.readAt hfollow hpeeked stays
  | mark name =>
    refine ⟨h.placed.mark name, fun t ht => h.peeked t ?_⟩
    rw [← ht, lexer_mark_local]
    split <;> rfl

theorem Follow.positioned (h : Follow src l) : Positioned src l := by
  induction h with
  | refl => exact ⟨placed_init src, nofun⟩
  | tail hfollow hstep ih => exact ih.follows hfollow hstep

end tokens

end Lexer
end stoned
