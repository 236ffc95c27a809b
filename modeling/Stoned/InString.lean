import Mathlib.Data.List.TakeWhile
import Stoned.Closing
import Stoned.Inspect

namespace stoned

/-! The tokens of a string in double quotes that val_inspect has written. -/

namespace Lexer

/-- The lexer with a token it has looked at. -/
def seen (l : Lexer) (t : Token) : Lexer := { l with peeked := some t }

/-- Strings and interpolations are open, no heredoc is, and what is ahead. -/
structure Inside (imode : List LexLevel) (l : Lexer) (text : List Char) : Prop where
  ahead : l.ahead = text
  peeked : l.peeked = none
  imode : l.imode = imode
  hd_active : l.hd_active = false
  hd_pending : l.hd_pending = false
  percent_close : l.percent_close = List.replicate LEX_INTERP_DEPTH '\x00'

/-- The modes inside a string at the top level, and inside a hole in it. -/
def string_mode : List LexLevel := [{ mode := .interp_str, ibrace := 0, regex_in_class := false }]
def hole_mode : List LexLevel := { mode := .interp_expr, ibrace := 0, regex_in_class := false } :: string_mode

section
variable {l l' : Lexer} {t : Token} {imode : List LexLevel} {text : List Char}

theorem lexer_next_seen (h : l.peeked = none) : (l.seen t).lexer_next = (t, l.after_token t) := by
  have hback : { l.seen t with peeked := none } = l := by
    cases l
    cases h
    rfl
  rw [lexer_next, seen]
  exact congrArg (fun l => (t, after_token l t)) hback

theorem lexer_peek_scan (h : l.peeked = none) : l.lexer_peek = (l.scan.1, l.scan.2.seen l.scan.1) := by
  simp only [lexer_peek, h]
  rfl

theorem Passed.inside (h : Passed l l') (hl : Inside imode l text) : Inside imode l' l'.ahead := by
  cases h
  exact ⟨rfl, hl.peeked, hl.imode, hl.hd_active, hl.hd_pending, hl.percent_close⟩

theorem inside_init (text : List Char) : Inside [] (lexer_init text) text :=
  ⟨rfl, rfl, rfl, rfl, rfl, rfl⟩

/-- Only what Inside does not look at changes behind a token. -/
theorem Inside.after_token (h : Inside imode l text) (t : Token) : Inside imode (l.after_token t) text := by
  obtain ⟨state, prev_was_dot, after_def, heq⟩ := l.after_token_frame t
  rw [heq]
  exact ⟨h.ahead, h.peeked, h.imode, h.hd_active, h.hd_pending, h.percent_close⟩

theorem Inside.advance {c : Char} (h : Inside imode l (c :: text)) : Inside imode l.advance text := by
  have hadvance := l.passed_advance.inside h
  rwa [ahead_advance, h.ahead, List.tail_cons] at hadvance

theorem Inside.push (h : Inside imode l text) (hdepth : imode.length < LEX_INTERP_DEPTH) (mode : LexMode) :
    Inside ({ mode, ibrace := 0, regex_in_class := false } :: imode) (l.imode_push mode) text := by
  rw [imode_push, imode_depth, h.imode, if_pos hdepth]
  exact ⟨h.ahead, h.peeked, rfl, h.hd_active, h.hd_pending, h.percent_close⟩

theorem Inside.pop {level : LexLevel} (h : Inside (level :: imode) l text) : Inside imode l.imode_pop text :=
  ⟨h.ahead, h.peeked, congrArg List.tail h.imode, h.hd_active, h.hd_pending, h.percent_close⟩

theorem Inside.reset_close (h : Inside imode l text) : Inside imode (l.set_percent_close '\x00') text := by
  refine ⟨h.ahead, h.peeked, h.imode, h.hd_active, h.hd_pending, ?_⟩
  rw [set_percent_close, h.percent_close, List.set_replicate_self]

theorem Inside.at_state (h : Inside imode l text) (state : LexState) : Inside imode { l with state } text :=
  ⟨h.ahead, h.peeked, h.imode, h.hd_active, h.hd_pending, h.percent_close⟩

theorem Inside.at_end_eq (h : Inside imode l text) : l.at_end = text.isEmpty := by rw [Lexer.at_end_eq, h.ahead]

theorem Inside.peek_ch_eq (h : Inside imode l text) : l.peek_ch = text.headD '\x00' := by
  rw [Lexer.peek_ch_eq, h.ahead]

theorem Inside.at_interpolation_eq (h : Inside imode l text) :
    l.at_interpolation = (text.headD '\x00' = '#' && text.tail.headD '\x00' = '{' : Bool) := by
  rw [Lexer.at_interpolation_eq, h.ahead]

theorem Inside.closing_char (h : Inside string_mode l text) : l.closing_char = '"' := by
  simp only [Lexer.closing_char, imode_top, top_percent_close, imode_depth, h.imode, h.percent_close]
  rfl

theorem Inside.scan_string (h : Inside string_mode l text) : l.scan = l.scan_interp_str_content := by
  simp only [scan, imode_top, h.imode, string_mode, List.head?_cons, Option.elim, h.hd_active, Bool.false_and,
    Bool.false_eq_true, if_false]

/-- The quote ends the string. -/
theorem Inside.scan_quote {rest : List Char} (h : Inside string_mode l ('"' :: rest)) :
    l.scan.1.kind = .interp_end ∧ Inside [] l.scan.2 rest := by
  rw [h.scan_string, scan_interp_str_content, h.closing_char]
  simp only [h.at_end_eq, h.peek_ch_eq, List.isEmpty_cons, List.headD_cons, decide_true, Bool.or_true, if_true,
    Bool.false_eq_true, if_false, true_and]
  exact h.advance.reset_close.pop

/-- An interpolation begins. -/
theorem Inside.scan_opener {rest : List Char} (h : Inside string_mode l ('#' :: '{' :: rest)) :
    l.scan.1.kind = .interp_expr_beg ∧ Inside hole_mode l.scan.2 rest := by
  rw [h.scan_string, scan_interp_str_content, h.closing_char]
  simp only [h.at_end_eq, h.peek_ch_eq, h.at_interpolation_eq, List.isEmpty_cons, List.headD_cons, List.tail_cons,
    Bool.false_or, Char.reduceEq, decide_false, decide_true, Bool.and_self, Bool.false_eq_true, if_false, if_true,
    begin_interpolation, true_and]
  exact h.advance.advance.push (by decide) .interp_expr

/-- Bytes without an interpolation are one token. -/
theorem Inside.scan_bytes {ascii_8bit : Bool} {s : List UInt8} {tail : List Char}
    (h : Inside string_mode l (inspect_bytes ascii_8bit s ++ tail)) (hne : s ≠ []) (hopener : ¬interpolation_opener <:+: s)
    (hstops : stops_content tail = true) :
    l.scan.1.kind = .interp_lit ∧ l.scan.1.sval = some (String.ofList (s.map char_of)) ∧
      Inside string_mode l.scan.2 tail := by
  have hlength : s.length ≤ l.len - l.pos := by
    rw [← ahead_length, h.ahead, List.length_append]
    exact Nat.le_add_right_of_le (length_inspect_bytes ascii_8bit s)
  obtain ⟨l', hpassed, htail, hcontent⟩ := string_content_inspected ascii_8bit s hopener h.ahead hstops hlength
  -- something was read, so the content did not stop at once
  have hgoes : (l.at_end || l.peek_ch = '"' || l.at_interpolation : Bool) = false := by
    rw [← Bool.not_eq_true]
    intro hstop
    have hnil : string_content '"' (l.len - l.pos) l = ([], l) := by
      cases l.len - l.pos with
      | zero => rfl
      | succ fuel => rw [string_content, if_pos hstop]
    rw [hnil] at hcontent
    exact hne (List.map_eq_nil_iff.mp (Prod.mk.inj hcontent).1.symm)
  rw [Bool.or_eq_false_iff] at hgoes
  rw [h.scan_string, scan_interp_str_content, h.closing_char]
  simp only [hgoes.1, hgoes.2, Bool.false_eq_true, if_false, literal_segment, hcontent, intern, true_and]
  have hinside := hpassed.inside h
  rwa [htail] at hinside

theorem Inside.skip_between_eq (h : Inside imode l text) :
    l.skip_between = { l with had_space := false }.skip_whitespace := by
  have hpending : { l with had_space := false }.skip_whitespace.hd_pending = false :=
    (passed_skip_whitespace _).hd_pending.trans h.hd_pending
  simp only [skip_between, hpending, Bool.false_and, Bool.false_eq_true, if_false]

/-- A character that is skipped between tokens by itself. -/
def is_skipped (c : Char) : Bool := c = ' ' || c = '\t' || c = '\x0d' || c = '#' || c = '\n'

theorem Inside.skip_blanks_here {c : Char} {rest : List Char} (h : Inside imode l (c :: rest))
    (hskipped : is_skipped c = false) (hescape : c = '\\' → rest.headD '\x00' ≠ '\n') (fuel : Nat) :
    skip_blanks fuel l = l := by
  have hpeek2 : l.peek2 = rest.headD '\x00' := by rw [peek2_eq, h.ahead, List.tail_cons]
  simp only [is_skipped, Bool.or_eq_false_iff, decide_eq_false_iff_not] at hskipped
  obtain ⟨⟨⟨⟨hspace, htab⟩, hreturn⟩, hcomment⟩, hnewline⟩ := hskipped
  have hcontinued : (c = '\\' && rest.headD '\x00' = '\n' : Bool) = false := by
    rw [Bool.and_eq_false_imp, decide_eq_true_eq, decide_eq_false_iff_not]
    exact hescape
  cases fuel with
  | zero => rfl
  | succ fuel =>
    rw [skip_blanks, h.at_end_eq, hpeek2]
    simp only [h.peek_ch_eq, List.isEmpty_cons, List.headD_cons, hspace, htab, hreturn, hcomment, hnewline, hcontinued,
      decide_false, Bool.or_self, Bool.false_and, Bool.false_eq_true, if_false]

theorem Inside.spaced (h : Inside imode l text) (had_space : Bool) : Inside imode { l with had_space } text :=
  ⟨h.ahead, h.peeked, h.imode, h.hd_active, h.hd_pending, h.percent_close⟩

theorem Inside.skip_blanks_space {rest : List Char} (h : Inside imode l (' ' :: rest)) (fuel : Nat) :
    skip_blanks (fuel + 1) l = skip_blanks fuel { l.advance with had_space := true } := by
  rw [skip_blanks]
  simp only [h.at_end_eq, h.peek_ch_eq, List.isEmpty_cons, List.headD_cons, decide_true, Bool.true_or,
    Bool.false_eq_true, if_false, if_true]

/-- A comment without a line end takes what is left. -/
theorem Inside.skip_blanks_comment {rest : List Char} (h : Inside imode l ('#' :: rest))
    (hrest : ∀ c ∈ rest, c ≠ '\n') (fuel : Nat) : (skip_blanks (fuel + 1) l).ahead = [] := by
  have hdrop : (l.advance_while (· ≠ '\n')).ahead = [] := by
    rw [ahead_advance_while, h.ahead, List.dropWhile_eq_nil_iff]
    rintro c (_ | ⟨_, hc⟩)
    · rfl
    · exact decide_eq_true (hrest c hc)
  have hstop (l' : Lexer) (hl' : l'.ahead = []) : skip_blanks fuel l' = l' := by
    cases fuel with
    | zero => rfl
    | succ fuel => rw [skip_blanks, Lexer.at_end_eq, hl', List.isEmpty_nil, if_pos rfl]
  rw [skip_blanks]
  simp only [h.at_end_eq, h.peek_ch_eq, List.isEmpty_cons, List.headD_cons, Char.reduceEq, decide_false,
    Bool.or_self, Bool.false_and, Bool.false_eq_true, if_false, if_true]
  rw [hstop { l.advance_while (· ≠ '\n') with had_space := true } hdrop]
  exact hdrop

/-- Behind the blanks of a hole it ends only where a brace was written. -/
theorem Inside.skip_blanks_inspected {ascii_8bit : Bool} (s : List UInt8)
    (h : Inside imode l (inspect_bytes ascii_8bit s ++ ['"'])) {fuel : Nat} (hfuel : s.length < fuel) :
    (∃ k rest, s = List.replicate k 0x20 ++ 0x7d :: rest ∧
      Inside imode (skip_blanks fuel l) ('}' :: (inspect_bytes ascii_8bit rest ++ ['"']))) ∨
    (skip_blanks fuel l).ahead.headD '\x00' ≠ '}' := by
  induction s generalizing l fuel with
  | nil =>
    rw [h.skip_blanks_here rfl (by rintro ⟨⟩), h.ahead]
    exact .inr (by rintro ⟨⟩)
  | cons b s ih =>
    obtain ⟨fuel, rfl⟩ := Nat.exists_eq_add_of_lt (Nat.zero_lt_of_lt hfuel)
    rw [Nat.zero_add] at hfuel ⊢
    rw [inspect_bytes, List.flatMap_cons, List.append_assoc] at h
    have hspec := inspect_byte_spec ascii_8bit b
    by_cases hspace : b = 0x20
    · subst hspace
      have hwritten : inspect_byte ascii_8bit 0x20 = [' '] := by cases ascii_8bit <;> rfl
      rw [hwritten, List.singleton_append] at h
      rw [h.skip_blanks_space]
      obtain ⟨k, rest, rfl, hrest⟩ | hother := ih (h.advance.spaced true) (Nat.lt_of_succ_lt_succ hfuel)
      · exact .inl ⟨k + 1, rest, by rw [List.replicate_succ, List.cons_append], hrest⟩
      · exact .inr hother
    by_cases hcomment : b = 0x23
    · subst hcomment
      have hwritten : inspect_byte ascii_8bit 0x23 = ['#'] := by cases ascii_8bit <;> rfl
      rw [hwritten, List.singleton_append] at h
      refine .inr ?_
      rw [h.skip_blanks_comment ?_]
      · rintro ⟨⟩
      · intro c hc
        rcases List.mem_append.mp hc with hc | hc
        · exact inspect_bytes_no_newline hc
        · rw [List.mem_singleton] at hc
          rw [hc]
          decide
    by_cases hbrace : b = 0x7d
    · subst hbrace
      have hwritten : inspect_byte ascii_8bit 0x7d = ['}'] := by cases ascii_8bit <;> rfl
      rw [hwritten, List.singleton_append] at h
      rw [h.skip_blanks_here rfl (by rintro ⟨⟩)]
      exact .inl ⟨0, s, rfl, h⟩
    · refine .inr ?_
      generalize inspect_byte ascii_8bit b = written at h hspec
      cases hspec with
      | plain hquote hbackslash hprinted =>
        rw [h.skip_blanks_here, h.ahead]
        · exact fun hc => hbrace (char_of_injective hc)
        · simp only [is_skipped, Bool.or_eq_false_iff, decide_eq_false_iff_not]
          refine ⟨⟨⟨⟨fun hc => hspace (char_of_injective hc), ?_⟩, ?_⟩, fun hc => hcomment (char_of_injective hc)⟩, ?_⟩
          all_goals
            intro hc
            rw [hc] at hprinted
            exact absurd hprinted (by decide)
        · exact fun hc => absurd hc hbackslash
      | letter hsimple =>
        rw [h.skip_blanks_here rfl, h.ahead]
        · rintro ⟨⟩
        · exact fun _ => (InspectedAs.letter hsimple).no_newline (by simp)
      | hex hhigh hlow hvalue =>
        rw [h.skip_blanks_here rfl (by rintro - ⟨⟩), h.ahead]
        rintro ⟨⟩

theorem Inside.scan_code (h : Inside imode l text)
    (hcode : (imode.head?).elim .normal LexLevel.mode = .normal ∨ (imode.head?).elim .normal LexLevel.mode = .interp_expr) :
    l.scan = (skip_blanks (l.len - l.pos) { l with had_space := false }).scan_here := by
  have hskip : l.scan = l.skip_between.scan_here := by
    rw [← h.imode] at hcode
    rcases hcode with hmode | hmode <;> simp only [scan, imode_top, hmode]
  rw [hskip, h.skip_between_eq]
  rfl

theorem Inside.scan_char_here {c : Char} (h : Inside imode l (c :: text)) :
    l.scan_here = l.advance.scan_char l.pos l.line (l.col_of l.pos) c := by
  simp only [scan_here, h.at_end_eq, h.peek_ch_eq, List.isEmpty_cons, List.headD_cons, Bool.false_eq_true, if_false]

/-- A string begins. -/
theorem Inside.scan_begin {rest : List Char} (h : Inside [] l ('"' :: rest)) :
    l.scan.1.kind = .interp_beg ∧ l.scan.1.ival = 0 ∧ Inside string_mode l.scan.2 rest := by
  have hhere := h.spaced false
  rw [h.scan_code (.inl rfl), hhere.skip_blanks_here rfl nofun, hhere.scan_char_here]
  exact ⟨rfl, rfl, hhere.advance.push (by decide) .interp_str⟩

theorem Inside.scan_eof (h : Inside [] l []) : l.scan.1.kind = .eof ∧ Inside [] l.scan.2 [] := by
  have hhere := h.spaced false
  have hskip : skip_blanks (l.len - l.pos) { l with had_space := false } = { l with had_space := false } := by
    cases l.len - l.pos with
    | zero => rfl
    | succ fuel => rw [skip_blanks, hhere.at_end_eq, List.isEmpty_nil, if_pos rfl]
  rw [h.scan_code (.inl rfl), hskip, scan_here, hhere.at_end_eq, List.isEmpty_nil, if_pos rfl]
  exact ⟨rfl, hhere⟩

theorem Inside.scan_close_brace (h : Inside hole_mode l text) (start line col : Nat) :
    (l.scan_close_brace start line col).1.kind = .interp_expr_end ∧
      Inside string_mode (l.scan_close_brace start line col).2 text := by
  have hstate := h.at_state .expr_end
  have htop : { l with state := .expr_end }.imode_top = .interp_expr := by
    rw [imode_top, hstate.imode]
    rfl
  have hbraces : ¬0 < ({ l with state := LexState.expr_end }.imode.head?).elim 0 LexLevel.ibrace := by
    rw [hstate.imode]
    exact Nat.lt_irrefl 0
  simp only [Lexer.scan_close_brace, htop, if_true, if_neg hbraces]
  exact ⟨rfl, hstate.pop⟩

/-- A hole is empty when only spaces stand in front of its brace; the next token
is another one else. -/
theorem Inside.scan_hole {ascii_8bit : Bool} {s : List UInt8}
    (h : Inside hole_mode l (inspect_bytes ascii_8bit s ++ ['"'])) :
    (∃ k rest, s = List.replicate k 0x20 ++ 0x7d :: rest ∧ l.scan.1.kind = .interp_expr_end ∧
      Inside string_mode l.scan.2 (inspect_bytes ascii_8bit rest ++ ['"'])) ∨
    l.scan.1.kind ≠ .interp_expr_end := by
  have hfuel : s.length < l.len - l.pos := by
    rw [← ahead_length, h.ahead, List.length_append]
    exact Nat.lt_succ_of_le (length_inspect_bytes ascii_8bit s)
  rw [h.scan_code (.inr rfl)]
  obtain ⟨k, rest, hs, hbrace⟩ | hother := (h.spaced false).skip_blanks_inspected s hfuel
  · refine .inl ⟨k, rest, hs, ?_⟩
    rw [hbrace.scan_char_here]
    exact hbrace.advance.scan_close_brace _ _ _
  · exact .inr (inner_here _ hother)

end
end Lexer
end stoned
