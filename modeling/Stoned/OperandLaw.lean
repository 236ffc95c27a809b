import Stoned.Passing

namespace stoned

/-! Which operators are read behind an operand. -/

/-- The operators with which a literal can begin too. -/
inductive Ambiguous where
  | slash | percent | lshift | question
  deriving DecidableEq, Repr

namespace Ambiguous

def spelling : Ambiguous → List Char
  | .slash => ['/']
  | .percent => ['%']
  | .lshift => ['<', '<']
  | .question => ['?']

def kind : Ambiguous → TokenKind
  | .slash => .slash
  | .percent => .percent
  | .lshift => .lshift
  | .question => .question

/-- The operator's compound assignment. -/
def assign : Ambiguous → Option TokenKind
  | .slash => some .slash_eq
  | .percent => some .percent_eq
  | .lshift => some .lshift_eq
  | .question => none

/-- The operator's token in front of `next`, and its length. -/
def reading (op : Ambiguous) (next : Char) : TokenKind × Nat :=
  match op.assign with
  | some assign => if next = '=' then (assign, op.spelling.length + 1) else (op.kind, op.spelling.length)
  | none => (op.kind, op.spelling.length)

/-- Whether a literal is tried behind an operand at `start` in front of `next`. -/
def tries_literal (op : Ambiguous) (l : Lexer) (start : Nat) (next : Char) : Bool :=
  match op with
  | .slash | .question => false
  | .percent => next = 'w' || next = 'i' || next = 'r'
  | .lshift => !l.preceded_by_class_keyword start && Lexer.opens_heredoc next

end Ambiguous

namespace Lexer

/-- An operand has ended, and the text goes on with the operator behind what
stands between tokens. -/
structure BehindOperand (l : Lexer) (op : Ambiguous) : Prop where
  ended : l.state = .expr_end
  not_peeked : l.peeked = none
  code : l.imode_top = .normal ∨ l.imode_top = .interp_expr
  stands : op.spelling.isPrefixOf (l.src.drop l.skip_between.pos) = true

/-- The next token is the operator, and the lexer is just behind it. -/
def ReadsOperator (l : Lexer) (op : Ambiguous) : Prop :=
  let start := l.skip_between.pos
  let (kind, len) := op.reading (l.char_at (start + op.spelling.length))
  l.lexer_next.1.kind = kind ∧ l.lexer_next.2.pos = start + len

section
variable (l : Lexer) (start line col : Nat)

theorem assigning_reads (kind assign : TokenKind) :
    (l.assigning start line col kind assign).1.kind = (if l.peek_ch = '=' then assign else kind) ∧
      (l.assigning start line col kind assign).2.pos = if l.peek_ch = '=' then l.pos + 1 else l.pos := by
  rw [assigning]
  split
  · exact ⟨rfl, l.advance_pos⟩
  · exact ⟨rfl, rfl⟩

theorem slash_reads (h : l.state = .expr_end) :
    l.scan_slash start line col = l.assigning start line col .slash .slash_eq := by
  simp [scan_slash, h]

theorem question_reads (h : l.state = .expr_end) :
    l.scan_question start line col = l.tok start line col .question := by
  simp [scan_question, begins_operand, h]

theorem percent_list_kind (kind : TokenKind) :
    (l.scan_percent_list start line col kind).1.kind = kind ∨
      (l.scan_percent_list start line col kind).1.kind = .error := by
  simp only [scan_percent_list]
  split
  · exact .inr rfl
  · split
    · exact .inl rfl
    · exact .inr rfl

theorem percent_regexp_kind :
    (l.scan_percent_regexp start line col).1.kind = .regexp ∨
      (l.scan_percent_regexp start line col).1.kind = .error := by
  simp only [scan_percent_regexp]
  split
  · exact .inr rfl
  · split
    · exact .inl rfl
    · exact .inr rfl

/-- Behind an operand a percent sign is an operator but in front of `w`, `i` and
`r`. -/
theorem percent_reads (h : l.state = .expr_end) :
    l.scan_percent start line col =
      if l.peek_ch = 'w' then l.scan_percent_list start line col .words
      else if l.peek_ch = 'i' then l.scan_percent_list start line col .symbols
      else if l.peek_ch = 'r' then l.scan_percent_regexp start line col
      else l.assigning start line col .percent .percent_eq := by
  by_cases hassign : l.peek_ch = '='
  · simp [scan_percent, assigning, hassign]
  · simp [scan_percent, assigning, hassign, h]

def is_mark (c : Char) : Bool := c = '-' || c = '~' || c = '"' || c = '\''

theorem is_mark_or_word (hopens : opens_heredoc l.peek_ch = true) :
    is_mark l.peek_ch = true ∨ isalpha l.peek_ch = true ∨ l.peek_ch = '_' := by
  simpa [opens_heredoc, is_mark, or_assoc] using hopens

/-- The marks in front of a heredoc's identifier are read. -/
theorem heredoc_style_pos (hmark : is_mark l.peek_ch = true) : l.pos < l.heredoc_style.2.pos := by
  simp only [is_mark, Bool.or_eq_true, decide_eq_true_eq] at hmark
  by_cases hindent : l.peek_ch = '-' ∨ l.peek_ch = '~'
  · have hadvance : (decide (l.peek_ch = '-') || decide (l.peek_ch = '~')) = true := by simpa using hindent
    simp only [heredoc_style, hadvance, if_true]
    split <;> simp
  · have hstay : (decide (l.peek_ch = '-') || decide (l.peek_ch = '~')) = false := by simpa using hindent
    have hquote : l.peek_ch = '"' ∨ l.peek_ch = '\'' := by tauto
    simp only [heredoc_style, hstay, Bool.false_eq_true, if_false, Bool.or_eq_true, decide_eq_true_eq, hquote, if_true]
    exact Nat.lt_of_lt_of_eq (Nat.lt_succ_self _) l.advance_pos.symm

theorem heredoc_style_unmarked (hmark : ¬ is_mark l.peek_ch = true) : l.heredoc_style.2 = l := by
  simp only [is_mark, Bool.or_eq_true, decide_eq_true_eq, not_or] at hmark
  simp [heredoc_style, hmark]

theorem scan_heredoc_kind
    (hword : isalpha l.heredoc_style.2.peek_ch = true ∨ l.heredoc_style.2.peek_ch = '_') :
    (l.scan_heredoc start line col).1.kind ≠ .lshift := by
  simp only [scan_heredoc, Bool.or_eq_true, decide_eq_true_eq, hword, if_true]
  split <;> exact nofun

/-- A heredoc that turns out to be none has read its marks. -/
theorem scan_heredoc_does_not_read (hopens : opens_heredoc l.peek_ch = true) :
    ¬ ((l.scan_heredoc start line col).1.kind = .lshift ∧ (l.scan_heredoc start line col).2.pos = l.pos) := by
  rintro ⟨hkind, hpos⟩
  by_cases hword : isalpha l.heredoc_style.2.peek_ch = true ∨ l.heredoc_style.2.peek_ch = '_'
  · exact l.scan_heredoc_kind start line col hword hkind
  · have hnone : (l.scan_heredoc start line col).2 = l.heredoc_style.2 := by
      simp only [scan_heredoc, Bool.or_eq_true, decide_eq_true_eq, hword, if_false]
    rw [hnone] at hpos
    by_cases hmark : is_mark l.peek_ch = true
    · exact absurd hpos (l.heredoc_style_pos hmark).ne'
    · rw [l.heredoc_style_unmarked hmark] at hword
      exact hword ((l.is_mark_or_word hopens).resolve_left hmark)

/-- A token and the place behind it. -/
def ReadsAs (r : Scan) (kind : TokenKind) (pos : Nat) : Prop := r.1.kind = kind ∧ r.2.pos = pos

/-- An operator that has been read, with the equals sign that may follow. -/
theorem assigning_readsAs (op : Ambiguous) {assign : TokenKind} (hassign : op.assign = some assign)
    (hpos : l.pos = start + op.spelling.length) :
    ReadsAs (l.assigning start line col op.kind assign) (op.reading l.peek_ch).1
      (start + (op.reading l.peek_ch).2) := by
  obtain ⟨hkind, hafter⟩ := l.assigning_reads start line col op.kind assign
  rw [ReadsAs, hkind, hafter]
  simp only [Ambiguous.reading, hassign]
  split
  · exact ⟨rfl, by rw [hpos, Nat.add_assoc]⟩
  · exact ⟨rfl, hpos⟩

/-- A percent literal is no operator. -/
theorem percent_literal_not_readsAs {r : Scan} {next : Char} {pos : Nat}
    (hkind : r.1.kind = .words ∨ r.1.kind = .symbols ∨ r.1.kind = .regexp ∨ r.1.kind = .error) :
    ¬ ReadsAs r (Ambiguous.percent.reading next).1 pos := by
  rintro ⟨hread, -⟩
  have hoperator : r.1.kind = .percent ∨ r.1.kind = .percent_eq := by
    rw [hread, Ambiguous.reading]
    simp only [Ambiguous.assign]
    split
    · exact .inr rfl
    · exact .inl rfl
  rcases hoperator with h | h <;> simp [h] at hkind

theorem scan_percent_reads_iff (hstate : l.state = .expr_end) (hpos : l.pos = start + 1) :
    ReadsAs (l.scan_percent start line col) (Ambiguous.percent.reading l.peek_ch).1
        (start + (Ambiguous.percent.reading l.peek_ch).2) ↔
      Ambiguous.percent.tries_literal l start l.peek_ch = false := by
  rw [l.percent_reads start line col hstate]
  have hlist := l.percent_list_kind start line col
  by_cases hw : l.peek_ch = 'w'
  · have hkind := hlist .words
    simp only [hw, if_true, Ambiguous.tries_literal, decide_true, Bool.true_or, Bool.true_eq_false, iff_false]
    exact percent_literal_not_readsAs (by tauto)
  by_cases hi : l.peek_ch = 'i'
  · have hkind := hlist .symbols
    simp only [hi, if_true, Ambiguous.tries_literal, decide_true, Bool.true_or, Bool.or_true, Bool.true_eq_false,
      iff_false]
    exact percent_literal_not_readsAs (by tauto)
  by_cases hr : l.peek_ch = 'r'
  · have hkind := l.percent_regexp_kind start line col
    simp only [hr, if_true, Ambiguous.tries_literal, decide_true, Bool.or_true, Bool.true_eq_false, iff_false]
    exact percent_literal_not_readsAs (by tauto)
  · simp only [hw, hi, hr, if_false, Ambiguous.tries_literal, decide_false, Bool.or_self, iff_true]
    exact l.assigning_readsAs start line col .percent rfl hpos

theorem scan_less_reads_iff (hless : l.peek_ch = '<') (hpos : l.pos = start + 1) :
    ReadsAs (l.scan_less start line col) (Ambiguous.lshift.reading l.advance.peek_ch).1
        (start + (Ambiguous.lshift.reading l.advance.peek_ch).2) ↔
      Ambiguous.lshift.tries_literal l.advance start l.advance.peek_ch = false := by
  simp only [scan_less, hless, if_true, Ambiguous.tries_literal]
  have hbehind : l.advance.pos = start + 2 := by rw [advance_pos, hpos]
  split
  case isTrue htries =>
    have hopens := (Bool.and_eq_true_iff.mp htries).2
    simp only [htries, Bool.true_eq_false, iff_false]
    rintro ⟨hkind, hafter⟩
    have hnext : l.advance.peek_ch ≠ '=' := by
      intro hnext
      rw [hnext] at hopens
      exact absurd hopens (by decide)
    simp only [Ambiguous.reading, Ambiguous.assign, hnext, if_false] at hkind hafter
    exact l.advance.scan_heredoc_does_not_read start line col hopens ⟨hkind, hafter.trans hbehind.symm⟩
  case isFalse htries =>
    simp only [Bool.not_eq_true] at htries
    simp only [htries, iff_true]
    exact l.advance.assigning_readsAs start line col .lshift rfl hbehind

end

/-- The characters of an operator that stands in the text. -/
theorem peek_ch_of_stands {l : Lexer} {pos : Nat} {c : Char} {rest : List Char} (hpos : l.pos = pos)
    (hdrop : l.src.drop pos = c :: rest) : l.peek_ch = c := by
  have hhead : (l.src.drop pos).head? = some c := by rw [hdrop]; rfl
  rw [List.head?_drop] at hhead
  simp [peek_ch, char_at, List.getD, hpos, hhead]

theorem scan_here_char {l : Lexer} {c : Char} {rest : List Char} (hdrop : l.src.drop l.pos = c :: rest) :
    l.scan_here = l.advance.scan_char l.pos l.line (l.col_of l.pos) c := by
  have hlt : l.pos < l.src.length := by
    by_contra hle
    rw [List.drop_eq_nil_of_le (Nat.le_of_not_lt hle)] at hdrop
    cases hdrop
  rw [scan_here, peek_ch_of_stands rfl hdrop]
  simp [at_end, len, Nat.not_le.mpr hlt]

theorem tries_literal_src {l l' : Lexer} (h : l'.src = l.src) (op : Ambiguous) (start : Nat) (next : Char) :
    op.tries_literal l' start next = op.tries_literal l start next := by
  cases l
  cases l'
  obtain rfl : _ = _ := h
  cases op <;> rfl

/-- Behind an operand the operator is read exactly when no literal is tried. -/
theorem reads_operator_iff (l : Lexer) (op : Ambiguous) (h : l.BehindOperand op) :
    l.ReadsOperator op ↔
      op.tries_literal l l.skip_between.pos (l.char_at (l.skip_between.pos + op.spelling.length)) = false := by
  have hsrc := l.skip_between_src
  have hstate : l.skip_between.advance.state = .expr_end := by rw [advance_state, skip_between_state, h.ended]
  obtain ⟨rest, hrest⟩ := List.isPrefixOf_iff_prefix.mp h.stands
  rw [← hsrc] at hrest
  simp only [ReadsOperator, lexer_next_here h.not_peeked h.code, after_token_pos]
  generalize hbetween : l.skip_between = l' at *
  have hchar (pos : Nat) : l.char_at pos = l'.char_at pos := by rw [char_at, char_at, hsrc]
  have hsrc₁ : l'.advance.src = l.src := by rw [advance_src, hsrc]
  have hsrc₂ : l'.advance.advance.src = l.src := by rw [advance_src, hsrc₁]
  have hnext : l'.char_at (l'.pos + 1) = l'.advance.peek_ch := by
    rw [peek_ch, char_at, char_at, advance_src, advance_pos]
  have hnext₂ : l'.char_at (l'.pos + 2) = l'.advance.advance.peek_ch := by
    rw [peek_ch, char_at, char_at, advance_src, advance_src, advance_pos, advance_pos]
  cases op with
  | slash =>
    rw [scan_here_char hrest.symm, scan_char, slash_reads _ _ _ _ hstate, hchar]
    simp only [Ambiguous.spelling, List.length_singleton, hnext, Ambiguous.tries_literal, iff_true]
    exact l'.advance.assigning_readsAs l'.pos l'.line (l'.col_of l'.pos) .slash rfl l'.advance_pos
  | percent =>
    rw [scan_here_char hrest.symm, scan_char, hchar, ← tries_literal_src hsrc₁]
    simp only [Ambiguous.spelling, List.length_singleton, hnext]
    exact l'.advance.scan_percent_reads_iff l'.pos l'.line (l'.col_of l'.pos) hstate l'.advance_pos
  | lshift =>
    have hless : l'.advance.peek_ch = '<' := by
      have hbehind : l'.advance.src.drop (l'.pos + 1) = '<' :: rest := by
        rw [advance_src, ← List.drop_drop, ← hrest]
        rfl
      exact peek_ch_of_stands l'.advance_pos hbehind
    rw [scan_here_char hrest.symm, scan_char, hchar, ← tries_literal_src hsrc₂]
    simp only [Ambiguous.spelling, List.length_cons, List.length_nil, hnext₂]
    exact l'.advance.scan_less_reads_iff l'.pos l'.line (l'.col_of l'.pos) hless l'.advance_pos
  | question =>
    rw [scan_here_char hrest.symm, scan_char, question_reads _ _ _ _ hstate]
    simp only [Ambiguous.tries_literal, iff_true]
    exact ⟨rfl, l'.advance_pos⟩

/-- The lexer behind the first token of a text. -/
def behind_first (text : String) : Lexer := (lexer_init text.toList).lexer_next.2

theorem slash_behind_operand_reads : (behind_first "1 /2").ReadsOperator .slash :=
  ((behind_first "1 /2").reads_operator_iff .slash
    ⟨by decide, by decide, by decide, by decide⟩).mpr rfl

/-- The sign of `1 <<-1` is lost. -/
theorem shift_swallows_sign : ¬ ∀ (l : Lexer) (op : Ambiguous), l.BehindOperand op → l.ReadsOperator op := by
  intro h
  have hread := h (behind_first "1 <<-1") .lshift ⟨by decide, by decide, by decide, by decide⟩
  exact absurd hread.2 (by decide)

end Lexer
end stoned
