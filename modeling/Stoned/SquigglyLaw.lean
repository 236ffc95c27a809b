import Stoned.Closing
import Stoned.Ends
import Stoned.HeredocLayout
import Stoned.InspectLaw

namespace stoned

/-! What the two kinds of squiggly heredocs make of their bodies. -/

section indentation

def join_lines (lines : List (List Char)) : List Char := ['\n'].intercalate lines

def indentation (line : List Char) : Nat := (line.takeWhile is_blank).length

def Blank (line : List Char) : Prop := ∀ c ∈ line, is_blank c = true

/-- The least indentation of the lines that are not blank, and 0 if all are. -/
structure LeastIndentation (lines : List (List Char)) (n : Nat) : Prop where
  least : ∀ line ∈ lines, ¬ Blank line → n ≤ indentation line
  met : (∃ line ∈ lines, ¬ Blank line ∧ indentation line = n) ∨ n = 0 ∧ ∀ line ∈ lines, Blank line

/-- The law: every line without as many blanks in front as the least indentation
has, or as it has itself. -/
def Unindented (body text : List Char) : Prop :=
  ∃ lines n, body = join_lines lines ∧ lines ≠ [] ∧ (∀ line ∈ lines, '\n' ∉ line) ∧ LeastIndentation lines n ∧
    text = join_lines (lines.map fun line => line.drop (min n (indentation line)))

theorem not_mem_of_splitOn {x : Char} (s : List Char) : ∀ line ∈ s.splitOn x, x ∉ line := by
  induction s with
  | nil =>
    intro line hline
    rw [List.splitOn_nil, List.mem_singleton] at hline
    rw [hline]
    exact List.not_mem_nil
  | cons c s ih =>
    rw [List.splitOn_cons_eq_if_modifyHead]
    split
    case isTrue => exact List.forall_mem_cons.mpr ⟨List.not_mem_nil, ih⟩
    case isFalse hc =>
      cases hsplit : s.splitOn x with
      | nil => exact absurd hsplit (List.splitOn_ne_nil _ _)
      | cons line lines =>
        rw [hsplit] at ih
        obtain ⟨hline, hlines⟩ := List.forall_mem_cons.mp ih
        refine List.forall_mem_cons.mpr ⟨fun hmem => ?_, hlines⟩
        obtain rfl | hmem := List.mem_cons.mp hmem
        · exact hc BEq.rfl
        · exact hline hmem

theorem drop_blanks_eq (n : Nat) (line : List Char) : drop_blanks n line = line.drop (min n (indentation line)) := by
  induction n generalizing line with
  | zero => rw [drop_blanks.eq_def, Nat.zero_min, List.drop_zero]
  | succ n ih =>
    cases line with
    | nil => rfl
    | cons c line =>
      rw [drop_blanks, indentation]
      by_cases hc : is_blank c = true
      · rw [if_pos hc, ih, List.takeWhile_cons_of_pos hc, List.length_cons, Nat.succ_min_succ, List.drop_succ_cons]
        rfl
      · rw [if_neg hc, List.takeWhile_cons_of_neg hc]
        rfl

theorem line_indent_eq_some {line : List Char} {n : Nat} :
    line_indent line = some n ↔ ¬ Blank line ∧ indentation line = n := by
  have hblank : line.all is_blank = true ↔ Blank line := List.all_eq_true
  unfold line_indent
  by_cases h : line.all is_blank = true
  · rw [if_pos h]
    exact ⟨nofun, fun hline => absurd (hblank.mp h) hline.1⟩
  · rw [if_neg h, Option.some.injEq]
    exact ⟨fun hn => ⟨fun hall => h (hblank.mpr hall), hn⟩, And.right⟩

theorem least_indentation (body : List Char) : LeastIndentation (body.splitOn '\n') (heredoc_min_indent body) := by
  unfold heredoc_min_indent
  generalize body.splitOn '\n' = lines
  cases hmin : (lines.filterMap line_indent).min? with
  | none =>
    have hblank : ∀ line ∈ lines, Blank line := by
      intro line hline
      by_contra hnot
      have hmem : indentation line ∈ lines.filterMap line_indent :=
        List.mem_filterMap.mpr ⟨line, hline, line_indent_eq_some.mpr ⟨hnot, rfl⟩⟩
      rw [List.min?_eq_none_iff.mp hmin] at hmem
      cases hmem
    exact ⟨fun _ _ _ => Nat.zero_le _, .inr ⟨rfl, hblank⟩⟩
  | some n =>
    obtain ⟨hmem, hleast⟩ := List.min?_eq_some_iff.mp hmin
    obtain ⟨line, hline, hindent⟩ := List.mem_filterMap.mp hmem
    refine ⟨fun line hline hnot => ?_, .inl ⟨line, hline, line_indent_eq_some.mp hindent⟩⟩
    exact hleast _ (List.mem_filterMap.mpr ⟨line, hline, line_indent_eq_some.mpr ⟨hnot, rfl⟩⟩)

/-- A body without its common indentation is as the law says. -/
theorem unindented_strip_indent (body : List Char) : Unindented body (strip_indent body) := by
  refine ⟨body.splitOn '\n', heredoc_min_indent body, (List.intercalate_splitOn '\n').symm, List.splitOn_ne_nil _ _,
    not_mem_of_splitOn body, least_indentation body, ?_⟩
  rw [strip_indent, join_lines]
  exact congrArg _ (List.map_congr_left fun line _ => drop_blanks_eq _ line)

end indentation

namespace Lexer

/-- The lexer is inside the body of a heredoc, of which `rest` has not been read. -/
structure InBody (min_indent : Nat) (at_bol : Bool) (rest : List Char) (l : Lexer) : Prop where
  peeked : l.peeked = none
  top : l.imode_top = .interp_str
  active : l.hd_active = true
  depth : l.imode_depth = l.hd_imode_depth
  min_indent : l.hd_min_indent = min_indent
  at_bol : l.hd_at_bol = at_bol
  ahead : ∃ behind, l.ahead = rest ++ behind
  left : l.hd_body_end - l.pos = rest.length

/-- No character of the text is special: neither a backslash nor an
interpolation. -/
structure PlainText (text : List Char) : Prop where
  no_escape : '\\' ∉ text
  no_opener : ¬ ['#', '{'] <:+: text

/-- The segments of a string and their text, up to the lexer in front of its end. -/
inductive Segments : Lexer → List Char → Lexer → Prop where
  | done {l : Lexer} (peeked : l.peeked = none) (ends : l.lexer_next.1.kind = .interp_end)
      (behind : l.lexer_next.2.peeked = none) : Segments l [] l
  | literal {l stop : Lexer} {text rest : List Char} (peeked : l.peeked = none) (kind : l.lexer_next.1.kind = .interp_lit)
      (sval : l.lexer_next.1.sval = some (intern text)) (slen : l.lexer_next.1.slen = text.length)
      (more : Segments l.lexer_next.2 rest stop) : Segments l (text ++ rest) stop

section body
variable {l : Lexer} {n : Nat} {at_bol : Bool} {rest : List Char}

theorem PlainText.of_infix {part text : List Char} (h : PlainText text) (hpart : part <:+: text) : PlainText part where
  no_escape hmem := h.no_escape (hpart.subset hmem)
  no_opener hopener := h.no_opener (hopener.trans hpart)

theorem InBody.passed {l' : Lexer} {rest' : List Char} (h : InBody n at_bol rest l) (hpassed : Passed l l')
    (hahead : ∃ behind, l'.ahead = rest' ++ behind) (hleft : l.hd_body_end - l'.pos = rest'.length) :
    InBody n at_bol rest' l' := by
  cases hpassed
  exact ⟨h.peeked, h.top, h.active, h.depth, h.min_indent, h.at_bol, hahead, hleft⟩

theorem InBody.advance {c : Char} (h : InBody n at_bol (c :: rest) l) : InBody n at_bol rest l.advance := by
  obtain ⟨behind, hahead⟩ := h.ahead
  have hleft := h.left
  rw [List.length_cons] at hleft
  refine h.passed l.passed_advance ⟨behind, ?_⟩ ?_
  · rw [ahead_advance, hahead]
    rfl
  · rw [advance_pos]
    omega

theorem InBody.peek_ch {c : Char} (h : InBody n at_bol (c :: rest) l) : l.peek_ch = c := by
  obtain ⟨behind, hahead⟩ := h.ahead
  rw [peek_ch_eq, hahead]
  rfl

theorem InBody.not_at_end {c : Char} (h : InBody n at_bol (c :: rest) l) : l.pos < l.hd_body_end := by
  have hleft := h.left
  rw [List.length_cons] at hleft
  omega

theorem InBody.at_end (h : InBody n at_bol [] l) : l.hd_body_end ≤ l.pos := Nat.le_of_sub_eq_zero h.left

theorem InBody.set_at_bol (h : InBody n at_bol rest l) (hd_at_bol : Bool) :
    InBody n hd_at_bol rest { l with hd_at_bol } :=
  ⟨h.peeked, h.top, h.active, h.depth, h.min_indent, rfl, h.ahead, h.left⟩

theorem InBody.skip_indent (k : Nat) (h : InBody n at_bol rest l) :
    InBody n at_bol (drop_blanks k rest) (skip_indent k l) := by
  induction k generalizing l rest with
  | zero => exact h
  | succ k ih =>
    rw [Lexer.skip_indent]
    cases rest with
    | nil =>
      have hend : ¬ l.pos < l.hd_body_end := Nat.not_lt.mpr h.at_end
      simp only [hend, decide_false, Bool.false_and, Bool.false_eq_true, if_false]
      exact h
    | cons c rest =>
      rw [drop_blanks, h.peek_ch]
      simp only [h.not_at_end, decide_true, Bool.true_and]
      split
      · exact ih h.advance
      · exact h

/-- No interpolation begins in plain text. -/
theorem InBody.no_opener {c : Char} (h : InBody n at_bol (c :: rest) l) (hplain : PlainText (c :: rest)) :
    (decide (c = '#') && decide (l.pos + 1 < l.hd_body_end) && decide (l.peek2 = '{')) = false := by
  rw [Bool.eq_false_iff]
  intro hopener
  simp only [Bool.and_eq_true, decide_eq_true_eq] at hopener
  obtain ⟨⟨rfl, hinside⟩, hbrace⟩ := hopener
  cases rest with
  | nil =>
    have hleft := h.left
    rw [List.length_singleton] at hleft
    omega
  | cons c rest =>
    obtain ⟨behind, hahead⟩ := h.ahead
    rw [peek2_eq, hahead] at hbrace
    obtain rfl : c = '{' := hbrace
    exact hplain.no_opener ⟨[], rest, rfl⟩

/-- Plain text that is not divided is read character by character. -/
theorem InBody.content_part {part : List Char} (hplain : PlainText (part ++ rest)) (hpart : 0 < n → '\n' ∉ part)
    (h : InBody n at_bol (part ++ rest) l) :
    ∃ l', InBody n at_bol rest l' ∧ ∀ fuel, heredoc_content (part.length + fuel) l =
      (part ++ (heredoc_content fuel l').1, (heredoc_content fuel l').2) := by
  induction part generalizing l with
  | nil => exact ⟨l, h, fun fuel => by rw [List.length_nil, Nat.zero_add]; rfl⟩
  | cons c part ih =>
    rw [List.cons_append] at hplain h
    have hmore : PlainText (part ++ rest) := hplain.of_infix (List.suffix_cons c _).isInfix
    obtain ⟨l', hbody, hcontent⟩ := ih hmore (fun hn hmem => hpart hn (List.mem_cons_of_mem c hmem)) h.advance
    refine ⟨l', hbody, fun fuel => ?_⟩
    have hescape : c ≠ '\\' := fun hc => hplain.no_escape (hc ▸ List.mem_cons_self)
    have hline : (decide (c = '\n') && decide (0 < l.hd_min_indent)) = false := by
      rw [h.min_indent, Bool.eq_false_iff]
      intro hdivides
      rw [Bool.and_eq_true, decide_eq_true_eq, decide_eq_true_eq] at hdivides
      exact hpart hdivides.2 (hdivides.1 ▸ List.mem_cons_self)
    rw [List.length_cons, Nat.succ_add_eq_add_succ, Nat.add_succ, heredoc_content, h.peek_ch]
    simp only [Nat.not_le.mpr h.not_at_end, h.no_opener hplain, hescape, hline, decide_false, Bool.or_self,
      Bool.false_eq_true, if_false, hcontent]
    rfl

theorem InBody.scan_eq (h : InBody n at_bol rest l) : l.scan = l.scan_heredoc_content := by
  simp [scan, h.top, h.active, h.depth]

theorem InBody.lexer_next_eq (h : InBody n at_bol rest l) :
    l.lexer_next = (l.scan_heredoc_content.1, l.scan_heredoc_content.2.after_token l.scan_heredoc_content.1) := by
  simp only [lexer_next, h.peeked, h.scan_eq]

theorem InBody.after_token (h : InBody n at_bol rest l) (t : Token) : InBody n at_bol rest (l.after_token t) := by
  obtain ⟨state, prev_was_dot, after_def, heq⟩ := l.after_token_frame t
  rw [heq]
  exact ⟨h.peeked, h.top, h.active, h.depth, h.min_indent, h.at_bol, h.ahead, h.left⟩

/-- A line without its indentation. -/
theorem InBody.after_indent (h : InBody n (decide (0 < n)) rest l) : InBody n false (drop_blanks n rest) l.after_indent := by
  rw [Lexer.after_indent, h.at_bol, h.min_indent]
  by_cases hn : 0 < n
  · simp only [hn, decide_true, Bool.and_self, if_true]
    exact (h.skip_indent n).set_at_bol false
  · obtain rfl : n = 0 := Nat.eq_zero_of_not_pos hn
    simp only [hn, decide_false, Bool.and_self, Bool.false_eq_true, if_false]
    rw [drop_blanks.eq_def]
    exact h

/-- Where a body is left to be read, the next token is a part of it. -/
theorem InBody.next_literal {c : Char} {tail buf : List Char} {at_bol' : Bool} {l' : Lexer} (h : InBody n at_bol rest l)
    (hline : InBody n at_bol' (c :: tail) l.after_indent)
    (hopener : (decide (c = '#') && decide (l.after_indent.pos + 1 < l.after_indent.hd_body_end) &&
      decide (l.after_indent.peek2 = '{')) = false)
    (hcontent : heredoc_content (c :: tail).length l.after_indent = (buf, l')) :
    l.lexer_next.1.kind = .interp_lit ∧ l.lexer_next.1.sval = some (intern buf) ∧ l.lexer_next.1.slen = buf.length ∧
      l.lexer_next.2 = l'.after_token l.lexer_next.1 := by
  rw [h.lexer_next_eq, scan_heredoc_content_eq]
  simp only [Nat.not_le.mpr hline.not_at_end, hline.peek_ch, hopener, Bool.false_eq_true, if_false, hline.left, hcontent]
  exact ⟨trivial, trivial, trivial, trivial⟩

theorem InBody.after_indent_opener {c : Char} {tail : List Char} (h : InBody n (decide (0 < n)) rest l)
    (hrest : drop_blanks n rest = c :: tail) (hplain : PlainText (c :: tail)) :
    (decide (c = '#') && decide (l.after_indent.pos + 1 < l.after_indent.hd_body_end) &&
      decide (l.after_indent.peek2 = '{')) = false := by
  have hline := h.after_indent
  rw [hrest] at hline
  exact hline.no_opener hplain

/-- Where nothing is left of the body, the next token is its end. -/
theorem InBody.segments_end (h : InBody n at_bol rest l) {rest' : List Char} {at_bol' : Bool}
    (hline : InBody n at_bol' rest' l.after_indent) (hend : rest' = []) : Segments l [] l := by
  subst hend
  have hpeeked : ∀ resume line line_start, (({ l.after_indent.imode_pop with hd_active := false }).leave_heredoc resume line
      line_start).peeked = l.after_indent.peeked := by
    intro resume line line_start
    unfold leave_heredoc
    split
    · rfl
    · rfl
  refine .done h.peeked ?_ ?_
  · rw [h.lexer_next_eq, scan_heredoc_content_eq]
    simp only [hline.at_end, if_true]
  · rw [h.lexer_next_eq, scan_heredoc_content_eq]
    simp only [hline.at_end, if_true, after_token_peeked, hpeeked]
    exact hline.peeked

theorem InBody.segments_done (h : InBody n at_bol [] l) : Segments l [] l := by
  have hnone : ∀ k, drop_blanks k [] = [] := fun k => by cases k <;> rfl
  have hline : ∃ at_bol', InBody n at_bol' [] l.after_indent := by
    unfold Lexer.after_indent
    split
    · have hskip := (h.skip_indent l.hd_min_indent).set_at_bol false
      rw [hnone] at hskip
      exact ⟨_, hskip⟩
    · exact ⟨_, h⟩
  obtain ⟨at_bol', hline⟩ := hline
  exact h.segments_end hline rfl

theorem drop_blanks_suffix (n : Nat) (line : List Char) : drop_blanks n line <:+ line := by
  rw [drop_blanks_eq]
  exact List.drop_suffix _ line

/-- What is left without a line's end, or where lines are not divided, is one
segment. -/
theorem InBody.segments_last (h : InBody n (decide (0 < n)) rest l) (hplain : PlainText rest)
    (hline : 0 < n → '\n' ∉ rest) : ∃ stop, Segments l (drop_blanks n rest) stop := by
  have hpart := hplain.of_infix (drop_blanks_suffix n rest).isInfix
  cases hrest : drop_blanks n rest with
  | nil => exact ⟨_, h.segments_end h.after_indent hrest⟩
  | cons c tail =>
    have hinside := h.after_indent
    rw [hrest] at hpart hinside
    have hwhole : (c :: tail) ++ [] = c :: tail := List.append_nil _
    rw [← hwhole] at hpart hinside
    have hundivided : 0 < n → '\n' ∉ c :: tail := fun hn hmem =>
      hline hn ((drop_blanks_suffix n rest).subset (hrest ▸ hmem))
    obtain ⟨l', hbody, hcontent⟩ := hinside.content_part hpart hundivided
    have hall := hcontent 0
    rw [heredoc_content] at hall
    rw [hwhole] at hpart
    obtain ⟨hkind, hsval, hslen, hnext⟩ := h.next_literal (hrest ▸ h.after_indent) (h.after_indent_opener hrest hpart) hall
    rw [hwhole] at hsval hslen
    have hend := hbody.after_token l.lexer_next.1
    rw [← hnext] at hend
    have hsegments := Segments.literal h.peeked hkind hsval hslen hend.segments_done
    rw [List.append_nil] at hsegments
    exact ⟨_, hsegments⟩

theorem drop_blanks_append (n : Nat) (line : List Char) (more : List Char) :
    drop_blanks n (line ++ '\n' :: more) = drop_blanks n line ++ '\n' :: more := by
  induction n generalizing line with
  | zero =>
    rw [drop_blanks.eq_def, drop_blanks.eq_def]
  | succ n ih =>
    cases line with
    | nil => rfl
    | cons c line =>
      rw [List.cons_append, drop_blanks, drop_blanks]
      split
      · exact ih line
      · rfl

/-- A line with its end is one segment. -/
theorem InBody.next_line {line more : List Char} (hn : 0 < n) (h : InBody n true (line ++ '\n' :: more) l)
    (hplain : PlainText (line ++ '\n' :: more)) (hline : '\n' ∉ line) :
    l.lexer_next.1.kind = .interp_lit ∧ l.lexer_next.1.sval = some (intern (drop_blanks n line ++ ['\n'])) ∧
      l.lexer_next.1.slen = (drop_blanks n line ++ ['\n']).length ∧ InBody n true more l.lexer_next.2 := by
  have hbegins : InBody n (decide (0 < n)) (line ++ '\n' :: more) l := by
    rw [decide_eq_true hn]
    exact h
  have hinside := hbegins.after_indent
  have hpart := hplain.of_infix (drop_blanks_suffix n _).isInfix
  rw [drop_blanks_append] at hinside hpart
  obtain ⟨l', hbody, hcontent⟩ := hinside.content_part hpart fun _ hmem =>
    hline ((drop_blanks_suffix n line).subset hmem)
  have hend : heredoc_content (more.length + 1) l' = (['\n'], { l'.advance with hd_at_bol := true }) := by
    have hopener : '\n' ≠ '#' := by decide
    have hescape : '\n' ≠ '\\' := by decide
    rw [heredoc_content, hbody.peek_ch, hbody.min_indent]
    simp only [Nat.not_le.mpr hbody.not_at_end, hopener, hescape, hn, decide_false, decide_true, Bool.false_and,
      Bool.or_self, Bool.and_self, Bool.false_eq_true, if_false, if_true]
  have hall := hcontent (more.length + 1)
  rw [hend] at hall
  have hrest : drop_blanks n (line ++ '\n' :: more) = drop_blanks n line ++ '\n' :: more := drop_blanks_append n line more
  cases hfirst : drop_blanks n line ++ '\n' :: more with
  | nil => exact absurd hfirst (by simp)
  | cons c tail =>
    have hlength : (c :: tail).length = (drop_blanks n line).length + (more.length + 1) := by
      rw [← hfirst, List.length_append, List.length_cons]
    rw [← hlength] at hall
    rw [hfirst] at hrest hpart
    obtain ⟨hkind, hsval, hslen, hnext⟩ := hbegins.next_literal (hrest ▸ hbegins.after_indent) (hbegins.after_indent_opener hrest hpart) hall
    refine ⟨hkind, hsval, hslen, ?_⟩
    rw [hnext]
    exact ((hbody.advance).set_at_bol true).after_token _

/-- The lines of a body, each without its indentation. -/
theorem InBody.segments_lines {lines : List (List Char)} (hn : 0 < n) (hne : lines ≠ [])
    (hlines : ∀ line ∈ lines, '\n' ∉ line) (hplain : PlainText (join_lines lines))
    (h : InBody n true (join_lines lines) l) :
    ∃ stop, Segments l (join_lines (lines.map (drop_blanks n))) stop := by
  induction lines generalizing l with
  | nil => exact absurd rfl hne
  | cons line lines ih =>
    obtain ⟨hline, hlines⟩ := List.forall_mem_cons.mp hlines
    cases lines with
    | nil =>
      rw [join_lines, List.intercalate_singleton] at h hplain
      have hbegins : InBody n (decide (0 < n)) line l := by
        rw [decide_eq_true hn]
        exact h
      rw [List.map_singleton, join_lines, List.intercalate_singleton]
      exact hbegins.segments_last hplain fun _ => hline
    | cons next lines =>
      have hjoin : join_lines (line :: next :: lines) = line ++ '\n' :: join_lines (next :: lines) := by
        rw [join_lines, List.intercalate_cons_cons, List.append_assoc]
        rfl
      rw [hjoin] at h hplain
      obtain ⟨hkind, hsval, hslen, hmore⟩ := h.next_line hn hplain hline
      have hrest : PlainText (join_lines (next :: lines)) :=
        hplain.of_infix ((List.suffix_cons '\n' _).trans (List.suffix_append line _)).isInfix
      obtain ⟨stop, hsegments⟩ := ih (List.cons_ne_nil _ _) hlines hrest hmore
      refine ⟨stop, ?_⟩
      have hmapped : join_lines ((line :: next :: lines).map (drop_blanks n)) =
          (drop_blanks n line ++ ['\n']) ++ join_lines ((next :: lines).map (drop_blanks n)) := by
        rw [join_lines, List.map_cons, List.map_cons, List.intercalate_cons_cons]
        rfl
      rw [hmapped]
      exact .literal h.peeked hkind hsval hslen hsegments

/-- The tokens of a body are its text without the common indentation. -/
theorem InBody.segments {body : List Char} (hplain : PlainText body)
    (h : InBody (heredoc_min_indent body) (decide (0 < heredoc_min_indent body)) body l) :
    ∃ stop, Segments l (strip_indent body) stop := by
  have hjoin : join_lines (body.splitOn '\n') = body := List.intercalate_splitOn '\n'
  obtain hzero | hpos := Nat.eq_zero_or_pos (heredoc_min_indent body)
  · have hsame : strip_indent body = drop_blanks (heredoc_min_indent body) body := by
      have hnothing : ∀ line, drop_blanks 0 line = line := fun line => by rw [drop_blanks.eq_def]
      rw [strip_indent, hzero, hnothing, funext hnothing, List.map_id']
      exact hjoin
    rw [hsame]
    exact h.segments_last hplain fun hn => absurd hn (by omega)
  · rw [decide_eq_true hpos, ← hjoin] at h
    rw [hjoin] at h
    have hlines : InBody (heredoc_min_indent body) true (join_lines (body.splitOn '\n')) l := by
      rw [hjoin]
      exact h
    exact hlines.segments_lines hpos (List.splitOn_ne_nil _ _) (not_mem_of_splitOn body) (hjoin.symm ▸ hplain)

end body

/-- The text of the body of the heredoc whose opener stands here. -/
def heredoc_body (l : Lexer) : List Char := l.behind_line.slice l.behind_line.pos l.body_found.1

/-- The next token opens a squiggly heredoc with this body. -/
structure OpensSquiggly (raw : Bool) (body : List Char) (l : Lexer) : Prop where
  code : l.InCode
  opener : l.skip_between.at_opener = true
  squiggly : l.skip_between.advance.advance.heredoc_style.1.squiggly = true
  quote : l.skip_between.advance.advance.heredoc_style.1.quote = some '\'' ↔ raw = true
  body : l.skip_between.heredoc_body = body

/-- The law: both forms give the body without its common indentation, the one
in one token and the other in a string's segments. -/
def Agree (body : List Char) (interpolating raw : Lexer) : Prop :=
  ∃ text, Unindented body text ∧
    (raw.lexer_next.1.kind = .string ∧ raw.lexer_next.1.sval = some (intern text) ∧
      raw.lexer_next.1.slen = text.length) ∧
    interpolating.lexer_next.1.kind = .interp_beg ∧ ∃ stop, Segments interpolating.lexer_next.2 text stop

section opener
variable {l : Lexer} {body : List Char} {raw : Bool}

theorem OpensSquiggly.lexer_next_eq (h : OpensSquiggly raw body l) :
    l.lexer_next = (l.skip_between.scan_here.1, l.skip_between.scan_here.2.after_token l.skip_between.scan_here.1) :=
  lexer_next_here h.code.not_peeked h.code.code

/-- The raw form is one token. -/
theorem OpensSquiggly.raw_token (h : OpensSquiggly true body l) :
    l.lexer_next.1.kind = .string ∧ l.lexer_next.1.sval = some (intern (strip_indent body)) ∧
      l.lexer_next.1.slen = (strip_indent body).length := by
  have hquote := h.quote.mpr rfl
  have hbody := h.body
  rw [heredoc_body] at hbody
  rw [h.lexer_next_eq, scan_at_opener_eq h.opener]
  simp only [hquote, if_true, raw_heredoc, h.squiggly, hbody]
  exact ⟨rfl, trivial, trivial⟩

/-- The body of a heredoc that interpolates is entered if there is room for it. -/
theorem inBody_begin_heredoc {behind : Lexer} (hpassed : Passed l behind) (hpeeked : l.peeked = none)
    (hroom : l.imode_depth < LEX_INTERP_DEPTH) {style : HeredocStyle} (hstyle : style.squiggly = true) {body_end : Nat}
    (hend : body_end ≤ l.len) (hbody : l.slice l.pos body_end = body) (start line col : Nat) :
    InBody (heredoc_min_indent body) (decide (0 < heredoc_min_indent body)) body
      (l.begin_heredoc start line col style body_end behind).2 := by
  have hdepth : behind.imode.length < LEX_INTERP_DEPTH := by
    rw [hpassed.imode]
    exact hroom
  have hslice : l.ahead.take (body_end - l.pos) = body := hbody
  have hlength : body_end - l.pos = body.length := by
    have hahead := l.ahead_length
    rw [← hslice, List.length_take]
    omega
  rw [begin_heredoc, hbody]
  simp only [hstyle, if_true, imode_push, imode_depth, hdepth]
  refine ⟨hpassed.peeked.trans hpeeked, rfl, rfl, rfl, rfl, rfl, ⟨l.ahead.drop (body_end - l.pos), ?_⟩, hlength⟩
  have hsrc : behind.src.drop l.pos = l.ahead := by
    rw [hpassed.src]
    rfl
  rw [← hslice, List.take_append_drop]
  exact hsrc

theorem OpensSquiggly.interpolates (h : OpensSquiggly false body l) :
    l.lexer_next.1.kind = .interp_beg ∧
      l.lexer_next.2 = (l.skip_between.behind_line.begin_heredoc l.skip_between.pos l.skip_between.line
        (l.skip_between.col_of l.skip_between.pos) l.skip_between.advance.advance.heredoc_style.1
        l.skip_between.body_found.1 l.skip_between.body_found.2).2.after_token l.lexer_next.1 := by
  have hquote : l.skip_between.advance.advance.heredoc_style.1.quote ≠ some '\'' := fun hq =>
    absurd (h.quote.mp hq) (by decide)
  rw [h.lexer_next_eq, scan_at_opener_eq h.opener]
  simp only [hquote, if_false]
  exact ⟨rfl, trivial⟩

theorem mark_rest_of_line_peeked (l : Lexer) : l.mark_rest_of_line.peeked = l.next_line.peeked := rfl

/-- The lexer behind an opener's line. -/
theorem behind_line_frame (l : Lexer) :
    l.skip_between.behind_line.peeked = l.peeked ∧ l.skip_between.behind_line.imode = l.imode := by
  obtain ⟨hd_pending, hbetween⟩ := l.passed_skip_between
  have hpassed := hbetween.trans ((passed_opener l.skip_between).trans (passed_next_line _))
  constructor
  · rw [behind_line, mark_rest_of_line_peeked, hpassed.peeked]
  · rw [behind_line, mark_rest_of_line_imode, hpassed.imode]

/-- The interpolating form enters the body if there is room for it. -/
theorem OpensSquiggly.inside (h : OpensSquiggly false body l) (hroom : l.imode_depth < LEX_INTERP_DEPTH) :
    InBody (heredoc_min_indent body) (decide (0 < heredoc_min_indent body)) body l.lexer_next.2 := by
  obtain ⟨hpeeked, himode⟩ := l.behind_line_frame
  obtain ⟨hend, hpassed, -⟩ := find_terminator_spec l.skip_between.behind_line l.skip_between.opener.1
    l.skip_between.advance.advance.heredoc_style.1.indent_ok
    (l.skip_between.behind_line.len - l.skip_between.behind_line.pos)
  have hdepth : l.skip_between.behind_line.imode_depth < LEX_INTERP_DEPTH := by
    rw [imode_depth, himode]
    exact hroom
  rw [h.interpolates.2]
  exact (inBody_begin_heredoc hpassed (hpeeked.trans h.code.not_peeked) hdepth h.squiggly hend h.body _ _ _).after_token _

theorem InCode.after_token (h : l.InCode) (t : Token) : (l.after_token t).InCode := by
  obtain ⟨state, prev_was_dot, after_def, heq⟩ := l.after_token_frame t
  rw [heq]
  exact ⟨h.not_peeked, h.code⟩

/-- Without room for it, code is read behind the opener. -/
theorem inCode_begin_heredoc {behind : Lexer} (hpassed : Passed l behind) (hcode : l.InCode)
    (hroom : ¬ l.imode_depth < LEX_INTERP_DEPTH) (style : HeredocStyle) (body_end start line col : Nat) :
    (l.begin_heredoc start line col style body_end behind).2.InCode := by
  have hfull : ¬ behind.imode.length < LEX_INTERP_DEPTH := by
    rw [hpassed.imode]
    exact hroom
  simp only [begin_heredoc, imode_push, imode_depth, hfull, if_false]
  refine ⟨hpassed.peeked.trans hcode.not_peeked, ?_⟩
  have htop : behind.imode_top = l.imode_top := by rw [imode_top, imode_top, hpassed.imode]
  have hmode := hcode.code
  rw [← htop] at hmode
  exact hmode

theorem OpensSquiggly.not_inside (h : OpensSquiggly false body l) (hroom : ¬ l.imode_depth < LEX_INTERP_DEPTH) :
    l.lexer_next.2.InCode := by
  obtain ⟨hpeeked, himode⟩ := l.behind_line_frame
  obtain ⟨-, hpassed, -⟩ := find_terminator_spec l.skip_between.behind_line l.skip_between.opener.1
    l.skip_between.advance.advance.heredoc_style.1.indent_ok
    (l.skip_between.behind_line.len - l.skip_between.behind_line.pos)
  have hcode : l.skip_between.behind_line.InCode := by
    refine ⟨hpeeked.trans h.code.not_peeked, ?_⟩
    rw [imode_top, himode]
    exact h.code.code
  have hfull : ¬ l.skip_between.behind_line.imode_depth < LEX_INTERP_DEPTH := by
    rw [imode_depth, himode]
    exact hroom
  rw [h.interpolates.2]
  exact (inCode_begin_heredoc hpassed hcode hfull _ _ _ _ _).after_token _

theorem OpensSquiggly.room (h : OpensSquiggly false body l) {raw : Lexer} (hagree : Agree body l raw) :
    l.imode_depth < LEX_INTERP_DEPTH := by
  obtain ⟨text, -, -, -, stop, hsegments⟩ := hagree
  by_contra hroom
  have hcode := h.not_inside hroom
  have hkind := l.lexer_next.2.skip_between.here_not_content
  have hnext := lexer_next_here hcode.not_peeked hcode.code
  cases hsegments with
  | done _ ends =>
    rw [hnext] at ends
    exact hkind.2 ends
  | literal _ kind =>
    rw [hnext] at kind
    exact hkind.1 kind

/-- Both forms give the same text exactly if the lexer has room for the string's
mode. -/
theorem squiggly_agrees_iff (body : List Char) (interpolating raw : Lexer) (hplain : PlainText body)
    (h : OpensSquiggly false body interpolating) (hraw : OpensSquiggly true body raw) :
    Agree body interpolating raw ↔ interpolating.imode_depth < LEX_INTERP_DEPTH :=
  ⟨h.room, fun hroom => ⟨strip_indent body, unindented_strip_indent body, hraw.raw_token, h.interpolates.1,
    (h.inside hroom).segments hplain⟩⟩

theorem squiggly_agrees_at_depth_0 :
    Agree "  a\n b\n".toList (behind 0 "<<~A\n  a\n b\nA\n") (behind 0 "<<~'A'\n  a\n b\nA\n") :=
  (squiggly_agrees_iff _ _ _ ⟨by decide, by decide⟩ ⟨⟨rfl, .inl rfl⟩, by decide +kernel, by decide +kernel, by decide +kernel, by decide +kernel⟩
    ⟨⟨rfl, .inl rfl⟩, by decide +kernel, by decide +kernel, by decide +kernel, by decide +kernel⟩).mpr (by decide)

/-- A heredoc behind 16 strings, each in an interpolation of the one before. -/
def nested_heredoc (opener : String) : String :=
  String.join (List.replicate 16 "\"#\x7b") ++ opener ++ "\n a\nA\n"

theorem nested_heredoc_not_entered :
    ¬ ∀ body interpolating raw, PlainText body → OpensSquiggly false body interpolating → OpensSquiggly true body raw →
      Agree body interpolating raw := by
  intro hall
  have h : OpensSquiggly false " a\n".toList (behind 32 (nested_heredoc "<<~A")) :=
    ⟨⟨by decide +kernel, by decide +kernel⟩, by decide +kernel, by decide +kernel, by decide +kernel, by decide +kernel⟩
  have hraw : OpensSquiggly true " a\n".toList (behind 32 (nested_heredoc "<<~'A'")) :=
    ⟨⟨by decide +kernel, by decide +kernel⟩, by decide +kernel, by decide +kernel, by decide +kernel, by decide +kernel⟩
  have hroom := h.room (hall _ _ _ ⟨by decide, by decide⟩ h hraw)
  exact absurd hroom (by decide +kernel)

end opener

end Lexer

namespace parser

open Lexer program

end parser
end stoned
