import Stoned.Passing

namespace stoned

/-! The small steps of which the scanners of tokens other than heredocs are made. -/

/-- The tokens that end a statement. -/
def TokenKind.ends_statement (kind : TokenKind) : Bool := kind = .newline || kind = .eof

/-- What a token does to the mode stack. -/
inductive Turn where
  | stays | opens | closes
  deriving DecidableEq, Repr

def TokenKind.turn : TokenKind → Turn
  | .interp_beg | .interp_expr_beg => .opens
  | .interp_end | .interp_expr_end => .closes
  | _ => .stays

namespace Lexer

/-- Steps inside a token: over a character, to what else is expected next, or
inside the newest entry of the mode stack. -/
inductive Moved (l : Lexer) : Lexer → Prop where
  | refl : Moved l l
  | advance {l' : Lexer} (h : Moved l l') : Moved l l'.advance
  | expect {l' : Lexer} (h : Moved l l') (state : LexState) (had_space prev_was_dot : Bool) :
    Moved l { l' with state, had_space, prev_was_dot }
  | top {l' : Lexer} (h : Moved l l') (f : LexLevel → LexLevel) (hmode : ∀ level, (f level).mode = level.mode) :
    Moved l (l'.modify_top f)
  | close {l' : Lexer} (h : Moved l l') (c : Char) : Moved l (l'.set_percent_close c)

/-- The steps of a token, one of which may enter or leave a mode. -/
inductive Turned (l : Lexer) : Turn → Lexer → Prop where
  | stays {l' : Lexer} (h : Moved l l') : Turned l .stays l'
  | opens {l' l'' : Lexer} (mode : LexMode) (h : Moved l l') (h' : Moved (l'.imode_push mode) l'') : Turned l .opens l''
  | closes {l' : Lexer} (h : Moved l l') (hmode : l'.imode_top ≠ .normal) : Turned l .closes l'.imode_pop

/-- A token inside a statement, which began at a line and a column. -/
structure Stepped (line col : Nat) (l : Lexer) (r : Scan) : Prop where
  line : r.1.line = line
  col : r.1.col = col
  continues : r.1.kind.ends_statement = false
  turned : Turned l r.1.kind.turn r.2

section
variable {l l' l'' : Lexer} {line col : Nat}

theorem Moved.trans (h : Moved l l') (h' : Moved l' l'') : Moved l l'' := by
  induction h' with
  | refl => exact h
  | advance _ ih => exact ih.advance
  | expect _ state had_space prev_was_dot ih => exact ih.expect state had_space prev_was_dot
  | top _ f hmode ih => exact ih.top f hmode
  | close _ c ih => exact ih.close c

theorem Moved.ite {c : Prop} [Decidable c] (h : Moved l l') (h' : Moved l l'') :
    Moved l (if c then l' else l'') := by
  split
  · exact h
  · exact h'

theorem Moved.at_state (h : Moved l l') (state : LexState) : Moved l { l' with state } :=
  h.expect state l'.had_space l'.prev_was_dot

theorem Moved.turned {turn : Turn} (h : Moved l l') (hturned : Turned l' turn l'') : Turned l turn l'' := by
  cases hturned with
  | stays hmoved => exact .stays (h.trans hmoved)
  | opens mode hmoved hbehind => exact .opens mode (h.trans hmoved) hbehind
  | closes hmoved hmode => exact .closes (h.trans hmoved) hmode

theorem Moved.stepped {r : Scan} (h : Moved l l') (hstepped : Stepped line col l' r) : Stepped line col l r :=
  ⟨hstepped.line, hstepped.col, hstepped.continues, h.turned hstepped.turned⟩

end

section
variable (l : Lexer) (start line col : Nat)

theorem moved_advance : Moved l l.advance := .advance .refl

theorem moved_skip_while (p : Char → Bool) (fuel : Nat) : Moved l (skip_while p fuel l) := by
  induction fuel generalizing l with
  | zero => exact .refl
  | succ fuel ih =>
    rw [skip_while]
    split
    · exact l.moved_advance.trans (ih l.advance)
    · exact .refl

theorem moved_advance_while (p : Char → Bool) : Moved l (l.advance_while p) := l.moved_skip_while p _

theorem moved_advance_if (p : Char → Bool) : Moved l (l.advance_if p) := by
  unfold advance_if
  split
  · exact l.moved_advance
  · exact .refl

theorem moved_regexp_flags (fuel flags : Nat) : Moved l (regexp_flags fuel l flags).2 := by
  induction fuel generalizing l flags with
  | zero => exact .refl
  | succ fuel ih =>
    simp only [regexp_flags]
    split_ifs
    case pos => exact .refl
    case neg => exact .refl
    all_goals exact l.moved_advance.trans (ih ..)

theorem moved_string_sq_content (fuel : Nat) (buf : List Char) :
    Moved l (string_sq_content fuel l buf).2 := by
  induction fuel generalizing l buf with
  | zero => exact .refl
  | succ fuel ih =>
    simp only [string_sq_content]
    split_ifs
    · exact .refl
    · exact (l.moved_advance.trans l.advance.moved_advance).trans (ih ..)
    · exact l.moved_advance.trans (ih ..)

theorem moved_find_close {l l' : Lexer} {opening closing : Char} {fuel depth : Nat}
    (h : find_close opening closing fuel depth l = some l') : Moved l l' := by
  induction fuel generalizing l depth with
  | zero => cases h
  | succ fuel ih =>
    simp only [find_close] at h
    split_ifs at h
    · exact l.moved_advance.trans (ih h)
    · exact (l.moved_advance.trans l.advance.moved_advance).trans (ih h)
    · exact l.moved_advance.trans (ih h)
    · cases depth with
      | zero => exact Option.some.inj h ▸ .refl
      | succ depth => exact l.moved_advance.trans (ih h)
    · exact l.moved_advance.trans (ih h)

theorem moved_hex_digits (count val digits : Nat) : Moved l (hex_digits count l val digits).2.2 := by
  induction count generalizing l val digits with
  | zero => exact .refl
  | succ count ih =>
    simp only [hex_digits]
    split
    · exact l.moved_advance.trans (ih ..)
    · exact .refl

theorem moved_octal_digits (count val : Nat) : Moved l (octal_digits count l val).2 := by
  induction count generalizing l val with
  | zero => exact .refl
  | succ count ih =>
    simp only [octal_digits]
    split
    · exact l.moved_advance.trans (ih ..)
    · exact .refl

theorem moved_braced_digits (fuel cp : Nat) : Moved l (braced_digits fuel l cp).2 := by
  induction fuel generalizing l cp with
  | zero => exact .refl
  | succ fuel ih =>
    simp only [braced_digits]
    split
    · exact .refl
    · exact l.moved_advance.trans (ih ..)

theorem moved_plain_digits (count cp : Nat) : Moved l (plain_digits count l cp).2 := by
  induction count generalizing l cp with
  | zero => exact .refl
  | succ count ih =>
    simp only [plain_digits]
    split
    · exact .refl
    · exact l.moved_advance.trans (ih ..)

theorem moved_hex_escape : Moved l l.hex_escape.2 := l.moved_hex_digits 2 0 0

theorem moved_unicode_escape : Moved l l.unicode_escape.2 := by
  simp only [unicode_escape]
  split
  · have hdigits := l.moved_advance.trans (l.advance.moved_braced_digits (l.len - l.pos) 0)
    dsimp only
    split
    · exact hdigits
    · exact hdigits.trans (moved_advance _)
  · exact l.moved_plain_digits 4 0

theorem moved_string_escape : Moved l l.string_escape.2 := by
  simp only [string_escape]
  split
  · exact l.moved_advance
  · split_ifs
    · exact l.moved_advance.trans (moved_hex_escape _)
    · exact l.moved_advance.trans (moved_unicode_escape _)
    · exact l.moved_advance.trans (moved_octal_digits ..)
    · exact l.moved_advance

theorem moved_string_content (close_ch : Char) (fuel : Nat) : Moved l (string_content close_ch fuel l).2 := by
  induction fuel generalizing l with
  | zero => exact .refl
  | succ fuel ih =>
    simp only [string_content]
    split_ifs
    · exact .refl
    · exact l.moved_advance
    · exact (l.moved_advance.trans (moved_string_escape _)).trans (ih _)
    · exact l.moved_advance.trans (ih _)

theorem moved_set_in_class (in_class : Bool) : Moved l (l.set_in_class in_class) := .top .refl _ fun _ => rfl

theorem moved_regexp_content (fuel : Nat) : Moved l (regexp_content fuel l).2 := by
  induction fuel generalizing l with
  | zero => exact .refl
  | succ fuel ih =>
    simp only [regexp_content]
    split_ifs
    · exact .refl
    · exact l.moved_advance.trans (ih _)
    · exact (l.moved_advance.trans (moved_advance _)).trans (ih _)
    · exact (l.moved_advance.trans (moved_set_in_class _ _)).trans (ih _)
    · exact (l.moved_advance.trans (moved_set_in_class _ _)).trans (ih _)
    · exact l.moved_advance.trans (ih _)

theorem moved_plain_regexp (fuel : Nat) (in_cls : Bool) : Moved l (plain_regexp fuel in_cls l).2 := by
  induction fuel generalizing l in_cls with
  | zero => exact .refl
  | succ fuel ih =>
    simp only [plain_regexp]
    split_ifs
    · exact .refl
    · exact l.moved_advance
    · exact (l.moved_advance.trans (moved_advance _)).trans (ih ..)
    all_goals exact l.moved_advance.trans (ih ..)

theorem moved_percent_q_content (opening closing : Char) (fuel depth : Nat) :
    Moved l (percent_q_content opening closing fuel depth l).1 := by
  induction fuel generalizing l depth with
  | zero => cases depth <;> exact .refl
  | succ fuel ih =>
    cases depth with
    | zero => exact .refl
    | succ depth =>
      simp only [percent_q_content]
      split_ifs
      · exact .refl
      · exact (l.moved_advance.trans (moved_advance _)).trans (ih ..)
      all_goals exact l.moved_advance.trans (ih ..)

theorem moved_gvar_name : Moved l l.gvar_name := by
  unfold gvar_name
  split
  · exact l.moved_advance_while _
  · exact l.moved_advance_if _

theorem moved_symbol_operator : Moved l l.symbol_operator := by
  unfold symbol_operator
  split
  case h_1 | h_2 | h_3 | h_4 | h_5 | h_6 | h_7 | h_8 => exact l.moved_advance
  · exact l.moved_advance.trans (moved_advance_if ..)
  · dsimp only
    split_ifs
    · exact l.moved_advance.trans (moved_advance _)
    · exact (l.moved_advance.trans (moved_advance _)).trans (moved_advance_if ..)
    · exact l.moved_advance
  · exact l.moved_advance.trans (moved_advance_if ..)
  · dsimp only
    split_ifs
    · exact (l.moved_advance.trans (moved_advance _)).trans (moved_advance_if ..)
    · exact l.moved_advance.trans (moved_advance_if ..)
  · exact l.moved_advance.trans (moved_advance_if ..)
  · dsimp only
    split_ifs
    · exact (l.moved_advance.trans (moved_advance _)).trans (moved_advance_if ..)
    · exact l.moved_advance
  · exact .refl

theorem stepped_prefixed (digit : Char → Bool) : Stepped line col l (l.scan_prefixed start line col digit) :=
  ⟨rfl, rfl, rfl, .stays ((l.moved_advance.trans (moved_advance _)).trans (moved_advance_while ..))⟩

/-- The suffix of a number. -/
theorem stepped_suffix {l l' : Lexer} {t : Token} (h : Moved l l') (hline : t.line = line) (hcol : t.col = col)
    (hkind : t.kind = .float ∨ t.kind = .int) :
    Stepped line col l
      (if l'.peek_ch = 'r' && is_suffix_end l'.peek2 then ({ t with kind := .rational }, l'.advance)
      else if l'.peek_ch = 'i' && is_suffix_end l'.peek2 then ({ t with kind := .imaginary }, l'.advance)
      else (t, l')) := by
  split_ifs
  · exact ⟨hline, hcol, rfl, .stays h.advance⟩
  · exact ⟨hline, hcol, rfl, .stays h.advance⟩
  · refine ⟨hline, hcol, ?_, ?_⟩
    · rcases hkind with hkind | hkind <;> rw [hkind] <;> rfl
    · rcases hkind with hkind | hkind <;> rw [hkind] <;> exact .stays h

theorem stepped_number : Stepped line col l (l.scan_number start line col) := by
  have hkind (real : Bool) : (if real then TokenKind.float else .int) = .float ∨ (if real then TokenKind.float else .int) = .int := by
    cases real
    · exact .inr rfl
    · exact .inl rfl
  unfold scan_number
  dsimp only
  split
  · exact l.stepped_prefixed ..
  split
  · exact l.stepped_prefixed ..
  split
  · exact l.stepped_prefixed ..
  have hdigits := l.moved_advance_while fun c => isdigit c || c = '_'
  refine stepped_suffix _ _ (Moved.ite ?_ ?_) rfl rfl (hkind _)
  · refine Moved.trans ?_ (moved_advance_while ..)
    refine Moved.trans ?_ (moved_advance_if ..)
    refine Moved.trans ?_ (moved_advance _)
    exact .ite (hdigits.trans ((moved_advance _).trans (moved_advance_while ..))) hdigits
  · exact .ite (hdigits.trans ((moved_advance _).trans (moved_advance_while ..))) hdigits

theorem stepped_string_sq : Stepped line col l (l.scan_string_sq start line col) := by
  have hcontent := l.moved_string_sq_content (l.len - l.pos) []
  refine ⟨rfl, rfl, rfl, .stays ?_⟩
  simp only [scan_string_sq]
  split
  · exact hcontent
  · exact hcontent.advance

theorem stepped_percent_list (kind : TokenKind) (hkind : kind.ends_statement = false) (hturn : kind.turn = .stays) :
    Stepped line col l (l.scan_percent_list start line col kind) := by
  simp only [scan_percent_list]
  split
  · exact ⟨rfl, rfl, rfl, .stays l.moved_advance⟩
  · have hopen := l.moved_advance.advance
    split
    · refine ⟨rfl, rfl, hkind, ?_⟩
      dsimp only [text_tok, make_tok]
      rw [hturn]
      exact .stays (hopen.trans (moved_find_close ‹_›)).advance
    · exact ⟨rfl, rfl, rfl, .stays (hopen.trans (moved_advance_while ..))⟩

theorem stepped_percent_regexp : Stepped line col l (l.scan_percent_regexp start line col) := by
  simp only [scan_percent_regexp]
  split
  · exact ⟨rfl, rfl, rfl, .stays l.moved_advance⟩
  · have hopen := l.moved_advance.advance
    split
    · exact ⟨rfl, rfl, rfl, .stays ((hopen.trans (moved_find_close ‹_›)).advance.trans (moved_regexp_flags ..))⟩
    · exact ⟨rfl, rfl, rfl, .stays (hopen.trans (moved_advance_while ..))⟩

theorem stepped_char_literal : Stepped line col l (l.scan_char_literal start line col) := by
  simp only [scan_char_literal]
  split_ifs
  · exact ⟨rfl, rfl, rfl, .stays .refl⟩
  · exact ⟨rfl, rfl, rfl, .stays l.moved_advance.advance⟩
  · exact ⟨rfl, rfl, rfl, .stays l.moved_advance⟩

theorem stepped_symbol : Stepped line col l (l.scan_symbol start line col) := by
  simp only [scan_symbol]
  split_ifs
  · exact ⟨rfl, rfl, rfl, .opens .interp_str l.moved_advance .refl⟩
  · refine ⟨rfl, rfl, rfl, ?_⟩
    exact l.moved_advance.turned (l.advance.stepped_string_sq start line col).turned
  · refine ⟨rfl, rfl, rfl, .stays ?_⟩
    dsimp only
    exact (l.moved_advance_while is_word).trans (moved_advance_if ..)
  · exact ⟨rfl, rfl, rfl, .stays ((l.moved_advance.trans (moved_advance_if ..)).trans (moved_advance_while ..))⟩
  · exact ⟨rfl, rfl, rfl, .stays (l.moved_advance.trans (moved_gvar_name _))⟩
  · exact ⟨rfl, rfl, rfl, .stays l.moved_symbol_operator⟩

theorem keyword_continues {word : String} {kind : TokenKind} (h : (word, kind) ∈ KEYWORDS) :
    kind.ends_statement = false ∧ kind.turn = .stays := by
  have hall : ∀ entry ∈ KEYWORDS, entry.2.ends_statement = false ∧ entry.2.turn = .stays := by decide
  exact hall _ h

theorem stepped_ident : Stepped line col l (l.scan_ident start line col) := by
  have hword := (l.moved_advance_while is_word).trans (moved_advance_if _ fun c => c = '?' || c = '!')
  simp only [scan_ident]
  split
  · obtain ⟨hkind, hturn⟩ := keyword_continues (List.mem_of_find?_eq_some ‹_›)
    refine ⟨rfl, rfl, hkind, ?_⟩
    dsimp only [text_tok, make_tok]
    rw [hturn]
    exact .stays hword
  · refine ⟨rfl, rfl, ?_, ?_⟩
    · dsimp only [text_tok, make_tok]
      split <;> rfl
    · dsimp only [text_tok, make_tok]
      split <;> exact .stays hword

theorem stepped_regexp : Stepped line col l (l.scan_regexp start line col) := by
  have htext := l.moved_plain_regexp (l.len - l.pos) false
  simp only [scan_regexp]
  split_ifs
  · exact ⟨rfl, rfl, rfl, .opens .interp_regex .refl (moved_set_in_class ..)⟩
  · exact ⟨rfl, rfl, rfl, .stays htext⟩
  · exact ⟨rfl, rfl, rfl, .stays (htext.advance.trans (moved_regexp_flags ..))⟩

theorem stepped_begin_interpolation : Stepped l.line (l.col_of l.pos) l l.begin_interpolation :=
  ⟨rfl, rfl, rfl, .opens .interp_expr l.moved_advance.advance .refl⟩

theorem stepped_interp_str_content (hmode : l.imode_top ≠ .normal) :
    Stepped l.line (l.col_of l.pos) l l.scan_interp_str_content := by
  simp only [scan_interp_str_content]
  split
  · have hend : Moved l (if l.at_end = true then l else l.advance) := .ite .refl l.moved_advance
    refine ⟨rfl, rfl, rfl, .closes (hend.close '\x00') ?_⟩
    split
    · exact hmode
    · exact (congrArg (fun imode => (imode.head?).elim .normal LexLevel.mode) l.advance_imode).trans_ne hmode
  split
  · exact l.stepped_begin_interpolation
  · exact ⟨rfl, rfl, rfl, .stays (l.moved_string_content l.closing_char (l.len - l.pos))⟩

theorem Moved.imode_top {l l' : Lexer} (h : Moved l l') : l'.imode_top = l.imode_top := by
  induction h with
  | refl => rfl
  | @advance l' _ ih => exact (congrArg (fun imode => (imode.head?).elim .normal LexLevel.mode) l'.advance_imode).trans ih
  | expect _ _ _ _ ih => exact ih
  | @top l' _ f hmode ih =>
    rw [← ih, Lexer.imode_top, Lexer.imode_top, modify_top]
    cases l'.imode with
    | nil => rfl
    | cons level levels => exact hmode level
  | close _ _ ih => exact ih

theorem stepped_interp_regex_content (hmode : l.imode_top ≠ .normal) :
    Stepped l.line (l.col_of l.pos) l l.scan_interp_regex_content := by
  have hcontent := l.moved_regexp_content (l.len - l.pos)
  simp only [scan_interp_regex_content]
  split_ifs
  · have hflags := l.moved_advance.trans (l.advance.moved_regexp_flags (l.advance.len - l.advance.pos) 0)
    exact ⟨rfl, rfl, rfl, .closes hflags (hflags.imode_top.trans_ne hmode)⟩
  · exact ⟨rfl, rfl, rfl, .closes .refl hmode⟩
  · exact l.stepped_begin_interpolation
  · exact ⟨rfl, rfl, rfl, .stays hcontent⟩

theorem stepped_tok {kind : TokenKind} (h : kind.ends_statement = false) (hturn : kind.turn = .stays) :
    Stepped line col l (l.tok start line col kind) := by
  refine ⟨rfl, rfl, h, ?_⟩
  rw [tok, make_tok, hturn]
  exact .stays .refl

theorem stepped_operator {kind : TokenKind} (h : kind.ends_statement = false) (hturn : kind.turn = .stays) :
    Stepped line col l (l.operator start line col kind) :=
  (Moved.refl.at_state .expr_beg).stepped (stepped_tok _ start line col h hturn)

theorem stepped_assigning {kind assign : TokenKind} (h : kind.ends_statement = false) (hturn : kind.turn = .stays)
    (hassign : assign.ends_statement = false) (hassign' : assign.turn = .stays) :
    Stepped line col l (l.assigning start line col kind assign) := by
  unfold assigning
  split
  · exact l.moved_advance.stepped (stepped_operator _ _ _ _ hassign hassign')
  · exact l.stepped_operator _ _ _ h hturn

theorem stepped_brace : Stepped line col l (l.scan_brace start line col) := by
  have hbeg : Moved l { l with state := .expr_beg } := Moved.refl.at_state .expr_beg
  refine ⟨rfl, rfl, rfl, .stays ?_⟩
  exact .ite (hbeg.top _ fun _ => rfl) hbeg

theorem stepped_close_brace : Stepped line col l (l.scan_close_brace start line col) := by
  have hend : Moved l { l with state := .expr_end } := Moved.refl.at_state .expr_end
  simp only [scan_close_brace]
  split
  case isTrue hmode =>
    split
    · exact ⟨rfl, rfl, rfl, .stays (hend.top _ fun _ => rfl)⟩
    · refine ⟨rfl, rfl, rfl, .closes hend ?_⟩
      rw [hmode]
      decide
  case isFalse => exact ⟨rfl, rfl, rfl, .stays hend⟩

theorem stepped_percent_q (opening : Char) : Stepped line col l (l.scan_percent_q start line col opening) :=
  ⟨rfl, rfl, rfl, .stays
    ((l.moved_percent_q_content opening (paired_delim opening) (l.len - l.pos + 1) 1).at_state .expr_end)⟩

theorem stepped_percent_string (opening : Char) : Stepped line col l (l.scan_percent_string start line col opening) :=
  ⟨rfl, rfl, rfl, .opens .interp_str .refl (Moved.refl.close _)⟩

theorem stepped_percent : Stepped line col l (l.scan_percent start line col) := by
  simp only [scan_percent]
  split
  · exact l.moved_advance.stepped (stepped_operator _ _ _ _ rfl rfl)
  split
  · exact l.stepped_percent_list _ _ _ _ rfl rfl
  split
  · exact l.stepped_percent_list _ _ _ _ rfl rfl
  split
  · exact l.stepped_percent_regexp ..
  split
  · split
    · exact l.moved_advance.advance.stepped (stepped_percent_q ..)
    split
    · exact l.moved_advance.advance.stepped (stepped_percent_string ..)
    · exact l.moved_advance.stepped (stepped_percent_string ..)
  · exact l.stepped_operator _ _ _ rfl rfl

theorem moved_heredoc_style : Moved l l.heredoc_style.2 := by
  simp only [heredoc_style]
  split_ifs
  · exact l.moved_advance.advance
  · exact l.moved_advance
  · exact l.moved_advance
  · exact .refl

/-- A heredoc that turns out to be none. -/
theorem stepped_no_heredoc (h : ¬ (isalpha l.heredoc_style.2.peek_ch || l.heredoc_style.2.peek_ch = '_') = true) :
    Stepped line col l (l.scan_heredoc start line col) := by
  simp only [scan_heredoc, h, Bool.false_eq_true, if_false]
  exact ⟨rfl, rfl, rfl, .stays l.moved_heredoc_style⟩

/-- A heredoc's opener stands here. -/
def at_opener : Bool :=
  let behind := l.advance.advance
  let marked := behind.heredoc_style.2
  l.peek_ch = '<' && l.advance.peek_ch = '<' && !l.preceded_by_class_keyword l.pos &&
    opens_heredoc behind.peek_ch && (isalpha marked.peek_ch || marked.peek_ch = '_')

theorem preceded_by_class_keyword_src {l' : Lexer} (h : l'.src = l.src) :
    l'.preceded_by_class_keyword start = l.preceded_by_class_keyword start := by
  cases l
  cases l'
  obtain rfl : _ = _ := h
  rfl

theorem stepped_less (hless : l.peek_ch = '<') (h : l.at_opener = false) :
    Stepped line col l.advance (l.advance.scan_less l.pos line col) := by
  simp only [scan_less]
  split
  case isTrue hshift =>
    split
    case isTrue htries =>
      refine (moved_advance _).stepped (stepped_no_heredoc _ _ _ _ ?_)
      intro hword
      have hclass : l.advance.advance.preceded_by_class_keyword l.pos = l.preceded_by_class_keyword l.pos :=
        l.preceded_by_class_keyword_src _ (by simp)
      rw [hclass] at htries
      simp_all [at_opener]
    case isFalse => exact (moved_advance _).stepped (stepped_assigning _ _ _ _ rfl rfl rfl rfl)
  case isFalse =>
    split
    · split
      · exact (moved_advance _).advance.stepped (stepped_operator _ _ _ _ rfl rfl)
      · exact (moved_advance _).stepped (stepped_operator _ _ _ _ rfl rfl)
    · exact stepped_operator _ _ _ _ rfl rfl

theorem stepped_at : Stepped line col l (l.scan_at start line col) := by
  by_cases h : l.peek_ch = '@'
  · simp only [scan_at, h, if_true]
    exact ⟨rfl, rfl, rfl, .stays (l.moved_advance.trans (moved_advance_while ..))⟩
  · simp only [scan_at, h, if_false]
    exact ⟨rfl, rfl, rfl, .stays (l.moved_advance_while _)⟩

/-- An operator that may be doubled. -/
theorem stepped_doubled {p : Prop} [Decidable p] {r : Scan} (h : Stepped line col l.advance r) {r' : Scan}
    (h' : Stepped line col l r') : Stepped line col l (if p then r else r') := by
  split
  · exact l.moved_advance.stepped h
  · exact h'

/-- A token that is no word, behind its first character. -/
theorem stepped_char {c : Char} (hnewline : c ≠ '\n') (hless : c ≠ '<') (hword : is_word c = false) :
    Stepped line col l (l.scan_char start line col c) := by
  have hassigning (l : Lexer) {kind assign : TokenKind} (h : kind.ends_statement = false) (hturn : kind.turn = .stays)
      (h' : assign.ends_statement = false) (hturn' : assign.turn = .stays) :
      Stepped line col l (l.assigning start line col kind assign) :=
    l.stepped_assigning _ _ _ h hturn h' hturn'
  have hoperator (l : Lexer) {kind : TokenKind} (h : kind.ends_statement = false) (hturn : kind.turn = .stays) :
      Stepped line col l (l.operator start line col kind) :=
    l.stepped_operator _ _ _ h hturn
  have htok (l : Lexer) {kind : TokenKind} (h : kind.ends_statement = false) (hturn : kind.turn = .stays) :
      Stepped line col l (l.tok start line col kind) :=
    l.stepped_tok _ _ _ h hturn
  have hend : Moved l { l with state := .expr_end } := Moved.refl.at_state .expr_end
  have hdot (l : Lexer) : Moved l { l with prev_was_dot := true } := Moved.refl.expect l.state l.had_space true
  unfold scan_char
  split
  · exact absurd rfl hnewline
  · exact htok _ rfl rfl
  · exact htok _ rfl rfl
  · exact hoperator _ rfl rfl
  · exact hend.stepped (htok _ rfl rfl)
  · exact hoperator _ rfl rfl
  · exact hend.stepped (htok _ rfl rfl)
  · exact l.stepped_brace ..
  · exact l.stepped_close_brace ..
  · exact htok _ rfl rfl
  · unfold scan_question
    split
    · exact l.stepped_char_literal ..
    · exact htok _ rfl rfl
  · exact hassigning _ rfl rfl rfl rfl
  · exact l.stepped_doubled _ _ (htok _ rfl rfl) (hassigning _ rfl rfl rfl rfl)
  · exact l.stepped_percent ..
  · exact hassigning _ rfl rfl rfl rfl
  · exact l.stepped_doubled _ _ (hassigning _ rfl rfl rfl rfl) (hassigning _ rfl rfl rfl rfl)
  · unfold scan_slash
    split
    · exact l.stepped_regexp ..
    · exact hassigning _ rfl rfl rfl rfl
  · refine l.stepped_doubled _ _ ((hdot _).stepped (htok _ rfl rfl)) ?_
    exact l.stepped_doubled _ _ (hassigning _ rfl rfl rfl rfl) (hassigning _ rfl rfl rfl rfl)
  · exact l.stepped_doubled _ _ (hassigning _ rfl rfl rfl rfl) (hassigning _ rfl rfl rfl rfl)
  · exact absurd rfl hless
  · exact l.stepped_doubled _ _ (hassigning _ rfl rfl rfl rfl) (hassigning _ rfl rfl rfl rfl)
  · refine l.stepped_doubled _ _ (hassigning _ rfl rfl rfl rfl) (l.stepped_doubled _ _ (htok _ rfl rfl) ?_)
    exact l.stepped_doubled _ _ (hoperator _ rfl rfl) (hoperator _ rfl rfl)
  · exact l.stepped_doubled _ _ (hoperator _ rfl rfl) (l.stepped_doubled _ _ (hoperator _ rfl rfl) (htok _ rfl rfl))
  · refine l.stepped_doubled _ _ ?_ ((hdot _).stepped (htok _ rfl rfl))
    exact stepped_doubled _ _ _ (htok _ rfl rfl) (htok _ rfl rfl)
  · refine l.stepped_doubled _ _ (htok _ rfl rfl) ?_
    split
    · exact l.stepped_symbol ..
    · exact htok _ rfl rfl
  · exact l.stepped_at ..
  · exact ⟨rfl, rfl, rfl, .stays l.moved_gvar_name⟩
  · exact l.stepped_string_sq ..
  · exact ⟨rfl, rfl, rfl, .opens .interp_str .refl .refl⟩
  · exact ⟨rfl, rfl, rfl, .opens .interp_backtick .refl .refl⟩
  · simp only [is_word, isalnum, Bool.or_eq_false_iff, decide_eq_false_iff_not] at hword
    obtain ⟨⟨halpha, hdigit⟩, hunder⟩ := hword
    simp only [hdigit, halpha, hunder, decide_false, Bool.or_self, Bool.false_eq_true, if_false]
    exact ⟨rfl, rfl, rfl, .stays .refl⟩

theorem scan_char_word {c : Char} (h : is_word c = true) :
    l.scan_char start line col c =
      if isdigit c then ({ l with pos := l.pos - 1 } : Lexer).scan_number start line col
      else ({ l with pos := l.pos - 1 } : Lexer).scan_ident start line col := by
  have halpha (hdigit : isdigit c = false) : (isalpha c || decide (c = '_')) = true := by
    simpa [is_word, isalnum, hdigit] using h
  unfold scan_char
  split
  case h_31 =>
    dsimp only
    split
    · rfl
    · rw [if_pos (halpha (by simpa using ‹¬ isdigit c = true›))]
  all_goals exact absurd h (by decide)

/-- The first character of a word is given back. -/
theorem advance_back (h : l.peek_ch ≠ '\n') : ({ l.advance with pos := l.advance.pos - 1 } : Lexer) = l := by
  rw [advance, if_neg h]
  rfl

/-- Where neither the text nor a line ends, and neither a heredoc nor a word
begins. -/
theorem stepped_sign (hend : l.at_end = false) (hnewline : l.peek_ch ≠ '\n') (hopener : l.at_opener = false)
    (hword : is_word l.peek_ch = false) : Stepped l.line (l.col_of l.pos) l.advance l.scan_here := by
  simp only [scan_here, hend, Bool.false_eq_true, if_false]
  by_cases hless : l.peek_ch = '<'
  · rw [hless, scan_char]
    exact l.stepped_less _ _ hless hopener
  · exact stepped_char _ _ _ _ hnewline hless hword

/-- Where neither the text nor a line ends and no heredoc begins. -/
theorem stepped_here (hend : l.at_end = false) (hnewline : l.peek_ch ≠ '\n') (hopener : l.at_opener = false) :
    Stepped l.line (l.col_of l.pos) l l.scan_here := by
  cases hword : is_word l.peek_ch with
  | true =>
    simp only [scan_here, hend, Bool.false_eq_true, if_false]
    rw [scan_char_word _ _ _ _ hword, advance_back l hnewline]
    split
    · exact l.stepped_number ..
    · exact l.stepped_ident ..
  | false => exact l.moved_advance.stepped (l.stepped_sign hend hnewline hopener hword)

end
end Lexer
end stoned
