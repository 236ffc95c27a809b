import Stoned.HeredocRun

namespace stoned

/-! The layout of heredocs behind the line that opens them. -/

/-- A heredoc in a text: its opener's marks and identifier, the lines of its
body and the line that ends it. -/
structure HeredocText where
  style : Lexer.HeredocStyle
  term : List Char
  body : List (List Char)
  indent : List Char
  carriage_return : Bool

def unlines (lines : List (List Char)) : List Char := lines.flatMap (· ++ ['\n'])

/-- A line that ends a heredoc. -/
def ends_body (term : List Char) (indent_ok : Bool) (line : List Char) : Bool :=
  let text := line.dropWhile is_blank
  let after := text.drop term.length
  term.isPrefixOf text && (after.isEmpty || after.headD '\x00' = '\x0d') &&
    (indent_ok || (line.takeWhile is_blank).isEmpty)

namespace HeredocText
variable (h : HeredocText)

def closing : List Char := h.indent ++ h.term ++ if h.carriage_return then ['\x0d'] else []

def text : List Char := unlines h.body ++ h.closing

/-- The identifier is one, the body's lines do not end the heredoc and the line
behind them does. -/
structure Proper : Prop where
  word : ∀ c ∈ h.term, is_word c = true
  named : h.term ≠ []
  lines : ∀ line ∈ h.body, '\n' ∉ line
  inside : ∀ line ∈ h.body, ends_body h.term h.style.indent_ok line = false
  blanks : ∀ c ∈ h.indent, is_blank c = true
  indented : h.style.indent_ok = true ∨ h.indent = []

end HeredocText

theorem dropWhile_blank_append {line tail : List Char} (htail : tail = [] ∨ ∃ more, tail = '\n' :: more) :
    (line ++ tail).dropWhile is_blank = line.dropWhile is_blank ++ tail := by
  induction line with
  | nil =>
    rcases htail with rfl | ⟨more, rfl⟩ <;> rfl
  | cons c line ih =>
    by_cases hc : is_blank c = true
    · simpa [hc] using ih
    · simp [hc]

theorem prefix_of_line {term line tail : List Char} (hterm : '\n' ∉ term)
    (htail : tail = [] ∨ ∃ more, tail = '\n' :: more) : term <+: line ++ tail ↔ term <+: line := by
  induction line generalizing term with
  | nil =>
    rcases htail with rfl | ⟨more, rfl⟩
    · rfl
    · cases term with
      | nil => simp
      | cons c term =>
        have hc : c ≠ '\n' := fun hc => hterm (by simp [hc])
        simp [hc]
  | cons c line ih =>
    cases term with
    | nil => simp
    | cons c' term =>
      rw [List.cons_append, List.cons_prefix_cons, List.cons_prefix_cons]
      exact and_congr_right fun _ => ih fun hmem => hterm (List.mem_cons_of_mem _ hmem)

theorem takeWhile_blank_append {line tail : List Char} (htail : tail = [] ∨ ∃ more, tail = '\n' :: more) :
    (line ++ tail).takeWhile is_blank = line.takeWhile is_blank := by
  induction line with
  | nil =>
    rcases htail with rfl | ⟨more, rfl⟩ <;> rfl
  | cons c line ih =>
    by_cases hc : is_blank c = true
    · simpa [hc] using ih
    · simp [hc]

theorem drop_takeWhile_length (p : Char → Bool) (text : List Char) :
    text.drop (text.takeWhile p).length = text.dropWhile p := by
  conv_lhs => rw [← List.takeWhile_append_dropWhile (p := p) (l := text)]
  rw [List.drop_left']
  simp

namespace Lexer

/-- A line, which the text ahead begins with, ends a heredoc or not. -/
theorem terminator_eq (l : Lexer) {term line tail : List Char} (indent_ok : Bool) (hterm : '\n' ∉ term)
    (hline : '\n' ∉ line) (hahead : l.ahead = line ++ tail) (htail : tail = [] ∨ ∃ more, tail = '\n' :: more) :
    l.terminator term indent_ok =
      if ends_body term indent_ok line then
        some (({ l with pos := l.pos + (line.takeWhile is_blank).length + term.length }.advance_if
          (· = '\x0d')).advance_if (· = '\n'))
      else none := by
  have hindent : ((l.src.drop l.pos).takeWhile is_blank).length = (line.takeWhile is_blank).length := by
    rw [← ahead, hahead, takeWhile_blank_append htail]
  have htext : l.src.drop (l.pos + (line.takeWhile is_blank).length) = line.dropWhile is_blank ++ tail := by
    rw [← List.drop_drop, ← ahead, ← hindent, ← ahead, drop_takeWhile_length, hahead, dropWhile_blank_append htail]
  have hafter : l.ahead.drop ((line.takeWhile is_blank).length + term.length) =
      (line.dropWhile is_blank ++ tail).drop term.length := by
    rw [← List.drop_drop, ← hindent, ← ahead, drop_takeWhile_length, hahead, dropWhile_blank_append htail]
  have hend : decide (l.len ≤ l.pos + (line.takeWhile is_blank).length + term.length) =
      ((line.dropWhile is_blank ++ tail).drop term.length).isEmpty := by
    rw [← hafter, ahead, List.drop_drop, Bool.eq_iff_iff, List.isEmpty_iff, List.drop_eq_nil_iff, decide_eq_true_eq,
      len, Nat.add_assoc]
  have hchar : l.char_at (l.pos + (line.takeWhile is_blank).length + term.length) =
      ((line.dropWhile is_blank ++ tail).drop term.length).headD '\x00' := by
    rw [Nat.add_assoc, l.char_at_eq, hafter]
  have hstarts : term.isPrefixOf (line.dropWhile is_blank ++ tail) = term.isPrefixOf (line.dropWhile is_blank) := by
    rw [Bool.eq_iff_iff, List.isPrefixOf_iff_prefix, List.isPrefixOf_iff_prefix, prefix_of_line hterm htail]
  have hblank : decide ((line.takeWhile is_blank).length = 0) = (line.takeWhile is_blank).isEmpty := by
    cases line.takeWhile is_blank <;> rfl
  simp only [terminator, hindent, htext, hend, hchar, hstarts, hblank]
  congr 1
  rw [ends_body]
  cases hterm' : term.isPrefixOf (line.dropWhile is_blank) with
  | false => simp
  | true =>
    obtain ⟨after, hdrop⟩ := List.isPrefixOf_iff_prefix.mp hterm'
    have hmem : '\n' ∉ after := fun hmem =>
      hline ((List.dropWhile_suffix is_blank).subset (hdrop ▸ List.mem_append_right term hmem))
    rw [← hdrop, List.append_assoc, List.drop_left, List.drop_left]
    cases after with
    | nil =>
      rcases htail with rfl | ⟨more, rfl⟩ <;> simp
    | cons c after =>
      have hc : c ≠ '\n' := fun hc => hmem (by simp [hc])
      simp [hc]

theorem pos_advance_if (l : Lexer) (p : Char → Bool) :
    (l.advance_if p).pos = if p l.peek_ch then l.pos + 1 else l.pos := by
  unfold advance_if
  split
  · exact l.advance_pos
  · rfl

theorem ahead_advance_if (l : Lexer) (p : Char → Bool) :
    (l.advance_if p).ahead = if p l.peek_ch then l.ahead.tail else l.ahead := by
  unfold advance_if
  split
  · exact l.ahead_advance
  · rfl

/-- The length of a line end, which the last line may lack. -/
def line_end_length (tail : List Char) : Nat := if tail.isEmpty then 0 else 1

/-- A line is passed over. -/
theorem next_line_eq (l : Lexer) {line tail : List Char} (hline : '\n' ∉ line) (hahead : l.ahead = line ++ tail)
    (htail : tail = [] ∨ ∃ more, tail = '\n' :: more) :
    l.line_end.pos = l.pos + line.length ∧ l.next_line.ahead = tail.tail ∧
      l.next_line.pos = l.pos + line.length + line_end_length tail := by
  have hother : ∀ c ∈ line, decide (c ≠ '\n') = true := by
    intro c hc
    simpa using fun heq : c = '\n' => hline (heq ▸ hc)
  have hstop : tail.takeWhile (fun c => decide (c ≠ '\n')) = [] ∧ tail.dropWhile (fun c => decide (c ≠ '\n')) = tail := by
    rcases htail with rfl | ⟨more, rfl⟩ <;> simp
  have hend : l.line_end.pos = l.pos + line.length := by
    rw [line_end, pos_advance_while, hahead, List.takeWhile_append_of_pos hother, hstop.1, List.append_nil]
  have hleft : l.line_end.ahead = tail := by
    rw [line_end, ahead_advance_while, hahead, List.dropWhile_append_of_pos hother, hstop.2]
  refine ⟨hend, ?_, ?_⟩
  · rw [next_line, ahead_advance_if, peek_ch_eq, hleft]
    rcases htail with rfl | ⟨more, rfl⟩ <;> simp
  · rw [next_line, pos_advance_if, peek_ch_eq, hleft, hend]
    rcases htail with rfl | ⟨more, rfl⟩ <;> simp [line_end_length]

section
variable {h : HeredocText} (hproper : h.Proper)
include hproper

theorem closing_indent : h.closing.takeWhile is_blank = h.indent ∧
    h.closing.dropWhile is_blank = h.term ++ if h.carriage_return then ['\x0d'] else [] := by
  have hfirst : (h.term ++ if h.carriage_return then ['\x0d'] else []).takeWhile is_blank = [] ∧
      (h.term ++ if h.carriage_return then ['\x0d'] else []).dropWhile is_blank =
        h.term ++ if h.carriage_return then ['\x0d'] else [] := by
    cases hterm : h.term with
    | nil => exact absurd hterm hproper.named
    | cons c term =>
      have hc : is_blank c = false := by
        have hword := hproper.word c (by simp [hterm])
        by_contra hblank
        simp only [Bool.not_eq_false, is_blank, Bool.or_eq_true, decide_eq_true_eq] at hblank
        rcases hblank with rfl | rfl <;> exact absurd hword (by decide)
      simp [hc]
  rw [HeredocText.closing, List.append_assoc, List.takeWhile_append_of_pos hproper.blanks,
    List.dropWhile_append_of_pos hproper.blanks, hfirst.1, hfirst.2]
  exact ⟨List.append_nil _, rfl⟩

theorem closing_ends_body : ends_body h.term h.style.indent_ok h.closing = true := by
  obtain ⟨hindent, htext⟩ := closing_indent hproper
  rw [ends_body, htext, hindent, List.drop_left]
  have hstarts : h.term.isPrefixOf (h.term ++ if h.carriage_return then ['\x0d'] else []) = true :=
    List.isPrefixOf_iff_prefix.mpr (List.prefix_append ..)
  have hindented : (h.style.indent_ok || h.indent.isEmpty) = true := by
    rcases hproper.indented with hok | hnil
    · simp [hok]
    · simp [hnil]
  simp only [hstarts, hindented, Bool.and_true, Bool.true_and]
  split <;> rfl

theorem term_one_line : '\n' ∉ h.term := fun hmem => absurd (hproper.word _ hmem) (by decide)

theorem closing_one_line : '\n' ∉ h.closing := by
  have hindent : '\n' ∉ h.indent := fun hmem => absurd (hproper.blanks _ hmem) (by decide)
  have hterm := term_one_line hproper
  cases hcr : h.carriage_return <;> simp [HeredocText.closing, hindent, hterm, hcr]

/-- The lexer behind the line that ends a heredoc. -/
theorem terminator_closing (l : Lexer) {tail : List Char} (hahead : l.ahead = h.closing ++ tail)
    (htail : tail = [] ∨ ∃ more, tail = '\n' :: more) :
    ∃ l', l.terminator h.term h.style.indent_ok = some l' ∧ Passed l l' ∧
      l'.pos = l.pos + h.closing.length + line_end_length tail := by
  rw [l.terminator_eq h.style.indent_ok (term_one_line hproper) (closing_one_line hproper) hahead htail,
    closing_ends_body hproper, if_pos rfl, (closing_indent hproper).1]
  refine ⟨_, rfl, ?_, ?_⟩
  · exact (Passed.trans (.mk ..) (passed_advance_if _ _)).trans (passed_advance_if _ _)
  · have hleft : ({ l with pos := l.pos + h.indent.length + h.term.length } : Lexer).ahead =
        (if h.carriage_return then ['\x0d'] else []) ++ tail := by
      have hdrop : l.src.drop (l.pos + h.indent.length + h.term.length) =
          l.ahead.drop (h.indent.length + h.term.length) := by
        rw [ahead, List.drop_drop, Nat.add_assoc]
      rw [ahead, hdrop, hahead, HeredocText.closing, List.append_assoc, ← List.length_append, List.drop_left]
    rw [pos_advance_if, peek_ch_eq, ahead_advance_if, pos_advance_if, peek_ch_eq, hleft]
    cases hcr : h.carriage_return
    all_goals
      rcases htail with rfl | ⟨more, rfl⟩ <;> simp [HeredocText.closing, hcr, line_end_length] <;> omega

end

/-- A heredoc's body is found where it begins. -/
theorem find_terminator_eq {h : HeredocText} (hproper : h.Proper) {tail : List Char}
    (htail : tail = [] ∨ ∃ more, tail = '\n' :: more) (body : List (List Char)) (hbody : ∀ line ∈ body, line ∈ h.body)
    (fuel : Nat) (hfuel : body.length < fuel) (l : Lexer) (hahead : l.ahead = unlines body ++ h.closing ++ tail) :
    ∃ l', find_terminator h.term h.style.indent_ok fuel l = (l.pos + (unlines body).length, l') ∧ Passed l l' ∧
      l'.pos = l.pos + (unlines body).length + h.closing.length + line_end_length tail := by
  induction body generalizing l fuel with
  | nil =>
    obtain ⟨fuel, rfl⟩ := Nat.exists_eq_succ_of_ne_zero (Nat.ne_of_gt hfuel)
    obtain ⟨l', hfound, hpassed, hpos⟩ := terminator_closing hproper l hahead htail
    have hend : l.at_end = false := by
      rw [at_end_eq, hahead]
      cases hterm : h.term with
      | nil => exact absurd hterm hproper.named
      | cons => simp [HeredocText.closing, hterm]
    refine ⟨l', ?_, hpassed, hpos⟩
    simp only [find_terminator, hend, hfound, Bool.false_eq_true, if_false]
    rfl
  | cons line body ih =>
    obtain ⟨fuel, rfl⟩ := Nat.exists_eq_succ_of_ne_zero (Nat.ne_of_gt (Nat.zero_lt_of_lt hfuel))
    have hmem := hbody line (List.mem_cons_self ..)
    have hline : l.ahead = line ++ '\n' :: (unlines body ++ h.closing ++ tail) := by
      rw [hahead]
      simp [unlines]
    have hinside := l.terminator_eq h.style.indent_ok (term_one_line hproper) (hproper.lines line hmem) hline
      (.inr ⟨_, rfl⟩)
    rw [hproper.inside line hmem, if_neg Bool.false_ne_true] at hinside
    obtain ⟨-, hnext, hnext_pos⟩ := l.next_line_eq (hproper.lines line hmem) hline (.inr ⟨_, rfl⟩)
    obtain ⟨l', hfound, hpassed, hpos⟩ := ih (fun line hline => hbody line (List.mem_cons_of_mem _ hline)) fuel
      (Nat.lt_of_succ_lt_succ hfuel) l.next_line hnext
    have hend : l.at_end = false := by
      rw [at_end_eq, hline]
      cases line <;> rfl
    have hlength : (unlines (line :: body)).length = line.length + 1 + (unlines body).length := by
      simp [unlines]
      omega
    have hstep : line_end_length ('\n' :: (unlines body ++ h.closing ++ tail)) = 1 := rfl
    rw [hstep] at hnext_pos
    refine ⟨l', ?_, l.passed_next_line.trans hpassed, by omega⟩
    simp only [find_terminator, hend, hinside, Bool.false_eq_true, if_false, hfound, Prod.mk.injEq, and_true]
    omega

/-- The identifier of the opener that stands here, and the lexer behind it. -/
def opener (l : Lexer) : List Char × Lexer :=
  let (style, l) := l.advance.advance.heredoc_style
  l.heredoc_identifier style

/-- The lexer behind the line of the opener that stands here. -/
def behind_line (l : Lexer) : Lexer := l.opener.2.mark_rest_of_line

/-- The end of the body that is found for the opener that stands here, and the
lexer behind its terminator. -/
def body_found (l : Lexer) : Nat × Lexer :=
  find_terminator l.opener.1 l.advance.advance.heredoc_style.1.indent_ok (l.behind_line.len - l.behind_line.pos)
    l.behind_line

theorem scan_at_opener_eq {l : Lexer} (h : l.at_opener = true) :
    l.scan_here =
      let style := l.advance.advance.heredoc_style.1
      if style.quote = some '\'' then
        l.behind_line.raw_heredoc l.pos l.line (l.col_of l.pos) style l.body_found.1 l.body_found.2
      else l.behind_line.begin_heredoc l.pos l.line (l.col_of l.pos) style l.body_found.1 l.body_found.2 := by
  have hword := (Bool.and_eq_true_iff.mp h).2
  rw [scan_here_at_opener h]
  simp only [scan_heredoc, hword, if_true, opener, behind_line, body_found]

theorem passed_heredoc_style (l : Lexer) : Passed l l.heredoc_style.2 := by
  simp only [heredoc_style]
  split_ifs
  · exact l.passed_advance.trans (passed_advance _)
  · exact l.passed_advance
  · exact l.passed_advance
  · exact .refl l

theorem passed_heredoc_identifier (l : Lexer) (style : HeredocStyle) :
    Passed l (l.heredoc_identifier style).2 := by
  simp only [heredoc_identifier]
  exact (l.passed_advance_while is_word).trans (passed_advance_if _ _)

theorem passed_opener (l : Lexer) : Passed l l.opener.2 := by
  have hmarks := (l.passed_advance.trans (passed_advance _)).trans (passed_heredoc_style _)
  simp only [opener]
  exact hmarks.trans (passed_heredoc_identifier _ _)

theorem mark_rest_of_line_pos (l : Lexer) : l.mark_rest_of_line.pos = l.next_line.pos := rfl
theorem mark_rest_of_line_ahead (l : Lexer) : l.mark_rest_of_line.ahead = l.next_line.ahead := rfl
theorem mark_rest_of_line_imode (l : Lexer) : l.mark_rest_of_line.imode = l.next_line.imode := rfl
theorem mark_rest_of_line_start (l : Lexer) : l.mark_rest_of_line.hd_rol_start = l.pos := rfl
theorem mark_rest_of_line_end (l : Lexer) : l.mark_rest_of_line.hd_rol_end = l.line_end.pos := rfl

/-- The token of a heredoc without interpolation, and how the lexer goes on. -/
theorem raw_heredoc_spec {l behind : Lexer} (hpassed : Passed l behind) (start line col : Nat) (style : HeredocStyle)
    (body_end : Nat) :
    (l.raw_heredoc start line col style body_end behind).1.kind = .string ∧
      (l.raw_heredoc start line col style body_end behind).1.sval =
        some (intern (if style.squiggly then strip_indent (l.slice l.pos body_end) else l.slice l.pos body_end)) ∧
      ∀ t, ((l.raw_heredoc start line col style body_end behind).2.after_token t).GoesOn l.hd_rol_start l.hd_rol_end
        behind.pos := by
  refine ⟨rfl, rfl, fun t => ?_⟩
  rw [← hpassed.framed.hd_rol_start, ← hpassed.framed.hd_rol_end]
  exact goesOn_leave_heredoc (framed_after_token _ _) (after_token_pos _ _)

theorem after_token_in_body (l : Lexer) (t : Token) : (l.after_token t).in_body = l.in_body := by
  simp only [after_token]
  split
  · rfl
  · split <;> rfl

/-- The token that begins a heredoc with interpolation. Its body is entered
unless strings are nested too deep. -/
theorem begin_heredoc_spec {l behind : Lexer} (hpassed : Passed l behind) (hcode : l.imode_top ≠ .interp_str)
    (start line col : Nat) (style : HeredocStyle) (body_end : Nat) (t : Token) :
    let l' := (l.begin_heredoc start line col style body_end behind).2.after_token t
    (l.begin_heredoc start line col style body_end behind).1.kind = .interp_beg ∧ l'.pos = l.pos ∧
      l'.in_body = decide (l.imode_depth < LEX_INTERP_DEPTH) ∧ l'.hd_body_end = body_end ∧
      l'.hd_resume = behind.pos ∧ l'.hd_rol_start = l.hd_rol_start ∧ l'.hd_rol_end = l.hd_rol_end := by
  have hframed (l' : Lexer) := framed_after_token l' t
  have hpush (l' : Lexer) := framed_imode_push l' .interp_str
  have hposition (l' : Lexer) : (l'.imode_push .interp_str).pos = l'.pos := by
    unfold imode_push
    split <;> rfl
  refine ⟨rfl, ?_, ?_, ?_, ?_, ?_, ?_⟩
  · rw [after_token_pos]
    exact hposition _
  · rw [after_token_in_body]
    have hmode : l.imode_top = (behind.imode.head?).elim .normal LexLevel.mode := by rw [hpassed.imode]; rfl
    have hdepth : l.imode_depth = behind.imode.length := by rw [hpassed.imode]; rfl
    rw [hmode] at hcode
    rw [hdepth]
    by_cases hroom : behind.imode.length < LEX_INTERP_DEPTH
    · simp [begin_heredoc, imode_push, imode_depth, hroom, in_body, imode_top]
    · simp [begin_heredoc, imode_push, imode_depth, hroom, in_body, imode_top, hcode]
  · rw [(hframed _).hd_body_end]
    exact (hpush _).hd_body_end
  · rw [(hframed _).hd_resume]
    exact (hpush _).hd_resume
  · rw [(hframed _).hd_rol_start, ← hpassed.framed.hd_rol_start]
    exact (hpush _).hd_rol_start
  · rw [(hframed _).hd_rol_end, ← hpassed.framed.hd_rol_end]
    exact (hpush _).hd_rol_end

/-- The end of a heredoc with interpolation. -/
theorem body_end_spec {l : Lexer} (hpeeked : l.peeked = none) (hend : l.at_body_end = true) :
    l.lexer_next.1.kind = .interp_end ∧ l.lexer_next.2.GoesOn l.hd_rol_start l.hd_rol_end l.hd_resume := by
  obtain ⟨hbody, hend⟩ := Bool.and_eq_true_iff.mp hend
  have hcontent : l.scan = l.scan_heredoc_content := by
    simp only [in_body, Bool.and_eq_true, decide_eq_true_eq] at hbody
    simp [scan, hbody]
  have hframed := l.framed_after_indent
  simp only [lexer_next, hpeeked, hcontent, scan_heredoc_content_eq, of_decide_eq_true hend, if_true]
  refine ⟨trivial, ?_⟩
  rw [← hframed.hd_rol_start, ← hframed.hd_rol_end, ← hframed.hd_resume]
  exact goesOn_leave_heredoc (l := { l.after_indent.imode_pop with hd_active := false }) (framed_after_token _ _)
    (after_token_pos _ _)

end Lexer

/-- Where a heredoc stands in a text: its body and the place behind its
terminator. -/
structure Region where
  start : Nat
  stop : Nat
  resume : Nat

/-- A line with the heredocs that it opens, in a text. -/
structure Layout where
  before : List Char
  line : List Char
  heredocs : List HeredocText
  behind : List Char

namespace Layout
variable (lay : Layout)

def texts (heredocs : List HeredocText) : List Char := heredocs.flatMap fun h => '\n' :: h.text

def text : List Char := lay.before ++ lay.line ++ texts lay.heredocs ++ lay.behind

def line_end : Nat := lay.before.length + lay.line.length

/-- The region of a heredoc behind `skipped` others. -/
def region (skipped : List HeredocText) (h : HeredocText) : Region :=
  let start := lay.line_end + (texts skipped).length + 1
  let stop := start + (unlines h.body).length
  { start, stop, resume := min (stop + h.closing.length + 1) lay.text.length }

structure Proper : Prop where
  line : '\n' ∉ lay.line
  heredocs : ∀ h ∈ lay.heredocs, h.Proper
  behind : lay.behind = [] ∨ ∃ more, lay.behind = '\n' :: more

/-- The next token is the opener, on the layout's line, of the heredoc behind
`skipped` others. -/
structure Opens (skipped : List HeredocText) (h : HeredocText) (l : Lexer) : Prop where
  code : l.InCode
  src : l.src = lay.text
  heredocs : ∃ rest, lay.heredocs = skipped ++ h :: rest
  opener : l.skip_between.at_opener = true
  style : l.skip_between.advance.advance.heredoc_style.1 = h.style
  term : l.skip_between.opener.1 = h.term
  behind_before : lay.before.length ≤ l.skip_between.opener.2.pos
  on_line : l.skip_between.opener.2.pos ≤ lay.line_end

/-- The next tokens of `l` deliver the heredoc's body, and then the lexer goes on
with the rest of the opener's line and behind the heredoc. An interpolating
heredoc's body is read by the steps up to its end. -/
structure Delivers (h : HeredocText) (l : Lexer) (r : Region) : Prop where
  start : l.skip_between.behind_line.pos = r.start
  stop : l.skip_between.body_found.1 = r.stop
  raw : h.style.quote = some '\'' →
    l.lexer_next.1.kind = .string ∧
      l.lexer_next.1.sval = some (intern (if h.style.squiggly then strip_indent (unlines h.body) else unlines h.body)) ∧
      l.lexer_next.2.GoesOn l.skip_between.opener.2.pos lay.line_end r.resume
  interpolating : h.style.quote ≠ some '\'' →
    l.lexer_next.1.kind = .interp_beg ∧ l.lexer_next.2.pos = r.start ∧ l.lexer_next.2.in_body = true ∧
      ∀ l', Lexer.Steps l.lexer_next.2 l' → l'.hd_body_end = r.stop ∧
        (l'.peeked = none → l'.at_body_end = true → l'.lexer_next.1.kind = .interp_end ∧
          l'.lexer_next.2.GoesOn l.skip_between.opener.2.pos lay.line_end r.resume)

section
variable {lay : Layout} {skipped : List HeredocText} {h : HeredocText} {l : Lexer}

theorem texts_cons_head (hbehind : lay.behind = [] ∨ ∃ more, lay.behind = '\n' :: more) (heredocs : List HeredocText) :
    texts heredocs ++ lay.behind = [] ∨ ∃ more, texts heredocs ++ lay.behind = '\n' :: more := by
  cases heredocs with
  | nil => exact hbehind
  | cons h heredocs => exact .inr ⟨_, rfl⟩

/-- What is left of an opener's line, and the lexer behind it. -/
theorem Opens.behind_line (hopens : lay.Opens skipped h l) (hproper : lay.Proper) :
    l.skip_between.behind_line.pos = lay.line_end + 1 ∧
      l.skip_between.behind_line.ahead = (texts lay.heredocs ++ lay.behind).tail ∧
      l.skip_between.behind_line.hd_rol_end = lay.line_end := by
  obtain ⟨rest, hheredocs⟩ := hopens.heredocs
  have hsrc : l.skip_between.opener.2.src = lay.text := by
    rw [(Lexer.passed_opener _).src, Lexer.skip_between_src, hopens.src]
  have hcons : ∃ more, texts lay.heredocs ++ lay.behind = '\n' :: more := by
    rw [hheredocs]
    cases skipped <;> exact ⟨_, rfl⟩
  have hahead : l.skip_between.opener.2.ahead =
      lay.line.drop (l.skip_between.opener.2.pos - lay.before.length) ++ (texts lay.heredocs ++ lay.behind) := by
    have hbefore := hopens.behind_before
    have hline := hopens.on_line
    rw [line_end] at hline
    rw [Lexer.ahead, hsrc, text, List.append_assoc, List.append_assoc, List.drop_append,
      List.drop_eq_nil_of_le hbefore, List.nil_append, List.drop_append_of_le_length (by omega)]
  have hnewline : '\n' ∉ lay.line.drop (l.skip_between.opener.2.pos - lay.before.length) := fun hmem =>
    hproper.line (List.drop_subset _ _ hmem)
  obtain ⟨hend, hnext, hpos⟩ := Lexer.next_line_eq _ hnewline hahead (.inr hcons)
  have hlength : l.skip_between.opener.2.pos +
      (lay.line.drop (l.skip_between.opener.2.pos - lay.before.length)).length = lay.line_end := by
    have hbefore := hopens.behind_before
    have hline := hopens.on_line
    rw [line_end] at hline ⊢
    rw [List.length_drop]
    omega
  rw [hlength] at hend hpos
  obtain ⟨more, hmore⟩ := hcons
  rw [hmore] at hpos
  rw [Lexer.behind_line, Lexer.mark_rest_of_line_pos, Lexer.mark_rest_of_line_ahead, Lexer.mark_rest_of_line_end]
  exact ⟨hpos, hnext, hend⟩

theorem length_unlines (lines : List (List Char)) : lines.length ≤ (unlines lines).length := by
  induction lines with
  | nil => exact le_rfl
  | cons line lines ih =>
    simp only [unlines, List.flatMap_cons, List.length_append, List.length_cons, List.length_nil] at ih ⊢
    omega

/-- The text behind the line of the first opener. -/
theorem Opens.ahead (hopens : lay.Opens [] h l) (hproper : lay.Proper) :
    ∃ tail, (tail = [] ∨ ∃ more, tail = '\n' :: more) ∧
      l.skip_between.behind_line.ahead = unlines h.body ++ h.closing ++ tail ∧
      lay.text.length = lay.line_end + 1 + (unlines h.body).length + h.closing.length + tail.length := by
  obtain ⟨rest, hheredocs⟩ := hopens.heredocs
  obtain ⟨-, hahead, -⟩ := hopens.behind_line hproper
  refine ⟨texts rest ++ lay.behind, texts_cons_head hproper.behind rest, ?_, ?_⟩
  · rw [hahead, hheredocs]
    simp [texts, HeredocText.text]
  · rw [text, hheredocs, line_end]
    simp only [List.nil_append, texts, List.flatMap_cons, HeredocText.text, List.length_append, List.length_cons]
    omega

/-- The first heredoc's region is found for its opener. -/
theorem Opens.found (hopens : lay.Opens [] h l) (hproper : lay.Proper) :
    l.skip_between.behind_line.pos = (lay.region [] h).start ∧
      l.skip_between.body_found.1 = (lay.region [] h).stop ∧
      l.skip_between.body_found.2.pos = (lay.region [] h).resume ∧
      Lexer.Passed l.skip_between.behind_line l.skip_between.body_found.2 := by
  obtain ⟨tail, htail, htext, hlength⟩ := hopens.ahead hproper
  obtain ⟨hpos, -, -⟩ := hopens.behind_line hproper
  have hproper_h : h.Proper := by
    obtain ⟨rest, hheredocs⟩ := hopens.heredocs
    exact hproper.heredocs h (by rw [hheredocs]; simp)
  have hclosing : 0 < h.closing.length := by
    have hnamed := List.length_pos_iff.mpr hproper_h.named
    simp only [HeredocText.closing, List.length_append]
    omega
  have hfuel : h.body.length < l.skip_between.behind_line.len - l.skip_between.behind_line.pos := by
    have hlines := length_unlines h.body
    rw [← Lexer.ahead_length, htext, List.length_append, List.length_append]
    omega
  obtain ⟨l', hfound, hpassed, hresume⟩ := Lexer.find_terminator_eq hproper_h htail h.body (fun _ hline => hline) _
    hfuel _ htext
  have hbody : l.skip_between.body_found = (l.skip_between.behind_line.pos + (unlines h.body).length, l') := by
    rw [Lexer.body_found, hopens.term, hopens.style, hfound]
  rw [hbody]
  refine ⟨hpos, by rw [hpos]; rfl, ?_, hpassed⟩
  rw [hresume, hpos]
  simp only [region, hlength, Lexer.line_end_length]
  rcases htail with rfl | ⟨more, rfl⟩ <;> simp [texts]

/-- The text of the first heredoc's body. -/
theorem Opens.body (hopens : lay.Opens [] h l) (hproper : lay.Proper) :
    l.skip_between.behind_line.slice l.skip_between.behind_line.pos l.skip_between.body_found.1 = unlines h.body := by
  obtain ⟨hstart, hstop, -, -⟩ := hopens.found hproper
  obtain ⟨tail, -, htext, -⟩ := hopens.ahead hproper
  have hlength : l.skip_between.body_found.1 - l.skip_between.behind_line.pos = (unlines h.body).length := by
    rw [hstart, hstop, region]
    simp only [Nat.add_sub_cancel_left]
  rw [Lexer.slice, hlength, ← Lexer.ahead, htext, List.append_assoc, List.take_left]

theorem Opens.lexer_next (hopens : lay.Opens skipped h l) :
    l.lexer_next = (l.skip_between.scan_here.1, l.skip_between.scan_here.2.after_token l.skip_between.scan_here.1) :=
  Lexer.lexer_next_here hopens.code.not_peeked hopens.code.code

theorem Opens.rest_start (l : Lexer) : l.skip_between.behind_line.hd_rol_start = l.skip_between.opener.2.pos := by
  rw [Lexer.behind_line, Lexer.mark_rest_of_line_start]

/-- The body of a heredoc without interpolation. -/
theorem Opens.raw (hopens : lay.Opens [] h l) (hproper : lay.Proper) (hraw : h.style.quote = some '\'') :
    l.lexer_next.1.kind = .string ∧
      l.lexer_next.1.sval = some (intern (if h.style.squiggly then strip_indent (unlines h.body) else unlines h.body)) ∧
      l.lexer_next.2.GoesOn l.skip_between.opener.2.pos lay.line_end (lay.region [] h).resume := by
  obtain ⟨hstart, hstop, hresume, hpassed⟩ := hopens.found hproper
  obtain ⟨-, -, hend⟩ := hopens.behind_line hproper
  obtain ⟨hkind, hsval, hgoes⟩ := Lexer.raw_heredoc_spec hpassed l.skip_between.pos l.skip_between.line
    (l.skip_between.col_of l.skip_between.pos) h.style l.skip_between.body_found.1
  rw [hresume, hend, Opens.rest_start] at hgoes
  rw [hopens.body hproper] at hsval
  rw [hopens.lexer_next, Lexer.scan_at_opener_eq hopens.opener]
  simp only [hopens.style, hraw, if_true]
  exact ⟨hkind, hsval, hgoes _⟩

/-- The body of a heredoc with interpolation. -/
theorem Opens.interpolating (hopens : lay.Opens [] h l) (hproper : lay.Proper) (hraw : h.style.quote ≠ some '\'') :
    l.lexer_next.1.kind = .interp_beg ∧ l.lexer_next.2.pos = (lay.region [] h).start ∧
      l.lexer_next.2.in_body = decide (l.imode_depth < LEX_INTERP_DEPTH) ∧
      ∀ l', Lexer.Steps l.lexer_next.2 l' → l'.hd_body_end = (lay.region [] h).stop ∧
        (l'.peeked = none → l'.at_body_end = true → l'.lexer_next.1.kind = .interp_end ∧
          l'.lexer_next.2.GoesOn l.skip_between.opener.2.pos lay.line_end (lay.region [] h).resume) := by
  obtain ⟨hstart, hstop, hresume, hpassed⟩ := hopens.found hproper
  obtain ⟨-, -, hend⟩ := hopens.behind_line hproper
  have himode : l.skip_between.behind_line.imode = l.imode := by
    rw [Lexer.behind_line, Lexer.mark_rest_of_line_imode, (Lexer.passed_next_line _).imode,
      (Lexer.passed_opener _).imode, Lexer.skip_between_imode]
  have hdepth : l.skip_between.behind_line.imode_depth = l.imode_depth := by rw [Lexer.imode_depth, himode]; rfl
  have hcode : l.skip_between.behind_line.imode_top ≠ .interp_str := by
    rw [Lexer.imode_top, himode]
    rcases hopens.code.code with hmode | hmode
    all_goals
      rw [Lexer.imode_top] at hmode
      rw [hmode]
      rintro ⟨⟩
  obtain ⟨hkind, hpos, hbody, hbody_end, hresume', hrol_start, hrol_end⟩ := Lexer.begin_heredoc_spec hpassed hcode
    l.skip_between.pos l.skip_between.line (l.skip_between.col_of l.skip_between.pos) h.style
    l.skip_between.body_found.1 l.lexer_next.1
  have hbehind : (l.skip_between.behind_line.begin_heredoc l.skip_between.pos l.skip_between.line
      (l.skip_between.col_of l.skip_between.pos) h.style l.skip_between.body_found.1
      l.skip_between.body_found.2).2.after_token l.lexer_next.1 = l.lexer_next.2 := by
    rw [hopens.lexer_next, Lexer.scan_at_opener_eq hopens.opener]
    simp only [hopens.style, hraw, if_false]
  have hkind' : l.lexer_next.1.kind = .interp_beg := by
    rw [hopens.lexer_next, Lexer.scan_at_opener_eq hopens.opener]
    simp only [hopens.style, hraw, if_false]
    exact hkind
  rw [hbehind] at hpos hbody hbody_end hresume' hrol_start hrol_end
  refine ⟨hkind', hpos.trans hstart, by rw [hbody, hdepth], fun l' hsteps => ?_⟩
  have hframed := hsteps.framed
  refine ⟨by rw [hframed.hd_body_end, hbody_end, hstop], fun hpeeked hend' => ?_⟩
  have hleaves := Lexer.body_end_spec hpeeked hend'
  rwa [hframed.hd_rol_start, hrol_start, hframed.hd_rol_end, hrol_end, hframed.hd_resume, hresume', hresume, hend,
    Opens.rest_start] at hleaves

end

/-- An opener's heredoc is delivered exactly when it is the first on its line and,
if it interpolates, strings are not nested too deep. -/
theorem delivers_iff (lay : Layout) (skipped : List HeredocText) (h : HeredocText) (l : Lexer)
    (hproper : lay.Proper) (hopens : lay.Opens skipped h l) :
    lay.Delivers h l (lay.region skipped h) ↔
      skipped = [] ∧ (h.style.quote = some '\'' ∨ l.imode_depth < LEX_INTERP_DEPTH) := by
  constructor
  · intro hdelivers
    obtain rfl : skipped = [] := by
      obtain ⟨hpos, -, -⟩ := hopens.behind_line hproper
      have hstart := hdelivers.start
      rw [hpos, region] at hstart
      cases skipped with
      | nil => rfl
      | cons h' skipped =>
        simp only [texts, List.flatMap_cons, List.length_append, List.length_cons] at hstart
        omega
    refine ⟨rfl, ?_⟩
    by_cases hraw : h.style.quote = some '\''
    · exact .inl hraw
    · obtain ⟨-, -, hbody, -⟩ := hdelivers.interpolating hraw
      obtain ⟨-, -, hdepth, -⟩ := hopens.interpolating hproper hraw
      exact .inr (of_decide_eq_true (hdepth.symm.trans hbody))
  · rintro ⟨rfl, hdepth⟩
    obtain ⟨hstart, hstop, -, -⟩ := hopens.found hproper
    refine ⟨hstart, hstop, hopens.raw hproper, fun hraw => ?_⟩
    obtain ⟨hkind, hpos, hbody, hsteps⟩ := hopens.interpolating hproper hraw
    exact ⟨hkind, hpos, hbody.trans (decide_eq_true (hdepth.resolve_left hraw)), hsteps⟩

/-- A heredoc of one line, `<<name`. -/
def plain_heredoc (name line : Char) : HeredocText where
  style := { squiggly := false, indent_ok := false, quote := none }
  term := [name]
  body := [[line]]
  indent := []
  carriage_return := false

/-- A call with heredocs as arguments. -/
def call_layout (line : String) (heredocs : List HeredocText) : Layout where
  before := []
  line := line.toList
  heredocs
  behind := ['\n']

theorem plain_heredoc_proper (name line : Char) (hname : is_word name = true) (hline : line ≠ '\n')
    (hinside : ends_body [name] false [line] = false) : (plain_heredoc name line).Proper where
  word := by simpa [plain_heredoc] using hname
  named := nofun
  lines := by simpa [plain_heredoc] using hline.symm
  inside := by simpa [plain_heredoc] using hinside
  blanks := nofun
  indented := .inr rfl

theorem first_heredoc_delivered :
    (call_layout "f <<A" [plain_heredoc 'A' 'a']).Delivers (plain_heredoc 'A' 'a')
        (Lexer.behind 1 "f <<A\na\nA\n")
        ((call_layout "f <<A" [plain_heredoc 'A' 'a']).region [] (plain_heredoc 'A' 'a')) ↔
      ([] : List HeredocText) = [] ∧ ((plain_heredoc 'A' 'a').style.quote = some '\'' ∨
        (Lexer.behind 1 "f <<A\na\nA\n").imode_depth < LEX_INTERP_DEPTH) := by
  refine delivers_iff _ _ _ _ ⟨by decide, ?_, .inr ⟨[], rfl⟩⟩
    ⟨⟨by decide, by decide⟩, by decide, ⟨[], rfl⟩, by decide, rfl, by decide, by decide, by decide⟩
  simpa [call_layout] using plain_heredoc_proper 'A' 'a' (by decide) (by decide) (by decide)

/-- The second heredoc of `f <<A, <<B` begins with the first one's body. -/
theorem second_heredoc_not_delivered :
    ¬ ∀ (lay : Layout) (skipped : List HeredocText) (h : HeredocText) (l : Lexer), lay.Proper →
      lay.Opens skipped h l → lay.Delivers h l (lay.region skipped h) := by
  intro hall
  have hdelivers := hall (call_layout "f <<A, <<B" [plain_heredoc 'A' 'a', plain_heredoc 'B' 'b'])
    [plain_heredoc 'A' 'a'] (plain_heredoc 'B' 'b') (Lexer.behind 5 "f <<A, <<B\na\nA\nb\nB\n")
    ⟨by decide, ?_, .inr ⟨[], rfl⟩⟩
    ⟨⟨by decide, by decide⟩, by decide, ⟨[], rfl⟩, by decide, rfl, by decide, by decide, by decide⟩
  · exact absurd hdelivers.start (by decide)
  · have hfirst := plain_heredoc_proper 'A' 'a' (by decide) (by decide) (by decide)
    have hsecond := plain_heredoc_proper 'B' 'b' (by decide) (by decide) (by decide)
    simpa [call_layout] using ⟨hfirst, hsecond⟩

end Layout
end stoned
