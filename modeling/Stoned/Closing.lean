import Stoned.Scanned

namespace stoned

/-! The tokens of code: only a brace closes an interpolation. -/

/-- The tokens that are no part of a string's content. -/
def TokenKind.is_code (kind : TokenKind) : Bool :=
  kind ≠ .interp_lit && kind ≠ .interp_end && kind ≠ .interp_expr_beg && kind ≠ .interp_expr_end

namespace Lexer

/-- A token that does not close an interpolation. -/
def Inner (r : Scan) : Prop := r.1.kind ≠ .interp_expr_end

/-- A token of code. -/
def Code (r : Scan) : Prop := r.1.kind.is_code = true

section
variable (l : Lexer) (start line col : Nat)

theorem code_ite {c : Prop} [Decidable c] {r r' : Scan} (h : Code r) (h' : Code r') :
    Code (if c then r else r') := by
  split
  · exact h
  · exact h'

theorem code_operator {kind : TokenKind} (h : kind.is_code = true) :
    Code (l.operator start line col kind) := h

theorem code_assigning {kind assign : TokenKind} (h : kind.is_code = true) (h' : assign.is_code = true) :
    Code (l.assigning start line col kind assign) := code_ite h' h

theorem code_number : Code (l.scan_number start line col) := by
  unfold scan_number
  dsimp only
  split_ifs
  all_goals exact rfl

theorem code_percent_list {kind : TokenKind} (h : kind.is_code = true) :
    Code (l.scan_percent_list start line col kind) := by
  unfold scan_percent_list
  dsimp only
  split
  · exact rfl
  · split
    · exact h
    · exact rfl

theorem code_percent_regexp : Code (l.scan_percent_regexp start line col) := by
  unfold scan_percent_regexp
  dsimp only
  split
  · exact rfl
  · split <;> exact rfl

theorem code_percent : Code (l.scan_percent start line col) := by
  unfold scan_percent
  refine code_ite (code_operator _ _ _ _ rfl) (code_ite (code_percent_list _ _ _ _ rfl)
    (code_ite (code_percent_list _ _ _ _ rfl) (code_ite (code_percent_regexp _ _ _ _) (code_ite ?_ ?_))))
  · exact code_ite rfl (code_ite rfl rfl)
  · exact code_operator _ _ _ _ rfl

theorem code_symbol : Code (l.scan_symbol start line col) := by
  unfold scan_symbol
  exact code_ite rfl (code_ite rfl rfl)

theorem code_char_literal : Code (l.scan_char_literal start line col) := by
  unfold scan_char_literal
  exact code_ite rfl (code_ite rfl rfl)

theorem code_regexp : Code (l.scan_regexp start line col) := by
  unfold scan_regexp
  exact code_ite rfl (code_ite rfl rfl)

theorem code_heredoc : Code (l.scan_heredoc start line col) := by
  unfold scan_heredoc
  exact code_ite (code_ite rfl rfl) rfl

theorem code_ident : Code (l.scan_ident start line col) := by
  have hkeyword : ∀ entry ∈ KEYWORDS, entry.2.is_code = true := by decide
  simp only [scan_ident]
  split
  · exact hkeyword _ (List.mem_of_find?_eq_some ‹_›)
  · rw [Code]
    dsimp only [text_tok, make_tok]
    split <;> exact rfl

theorem code_at : Code (l.scan_at start line col) := by
  by_cases h : l.peek_ch = '@'
  · simp only [scan_at, h, if_true]
    exact rfl
  · simp only [scan_at, h, if_false]
    exact rfl

/-- What a brace does not begin is a token of code. -/
theorem code_char {c : Char} (hbrace : c ≠ '}') : Code (l.scan_char start line col c) := by
  have htok (l : Lexer) {kind : TokenKind} (h : kind.is_code = true) : Code (l.tok start line col kind) := h
  have hassigning (l : Lexer) {kind assign : TokenKind} (h : kind.is_code = true)
      (h' : assign.is_code = true) : Code (l.assigning start line col kind assign) :=
    l.code_assigning _ _ _ h h'
  unfold scan_char
  split
  · exact htok _ rfl
  · exact htok _ rfl
  · exact htok _ rfl
  · exact htok _ rfl
  · exact htok _ rfl
  · exact htok _ rfl
  · exact htok _ rfl
  · exact htok _ rfl
  · exact absurd rfl hbrace
  · exact htok _ rfl
  · exact code_ite (code_char_literal _ _ _ _) (htok _ rfl)
  · exact hassigning _ rfl rfl
  · exact code_ite (htok _ rfl) (hassigning _ rfl rfl)
  · exact l.code_percent _ _ _
  · exact hassigning _ rfl rfl
  · exact code_ite (hassigning _ rfl rfl) (hassigning _ rfl rfl)
  · exact code_ite (code_regexp _ _ _ _) (hassigning _ rfl rfl)
  · exact code_ite (htok _ rfl) (code_ite (hassigning _ rfl rfl) (hassigning _ rfl rfl))
  · exact code_ite (hassigning _ rfl rfl) (hassigning _ rfl rfl)
  · exact code_ite (code_ite (code_heredoc _ _ _ _) (hassigning _ rfl rfl))
      (code_ite (code_ite (htok _ rfl) (htok _ rfl)) (htok _ rfl))
  · exact code_ite (hassigning _ rfl rfl) (hassigning _ rfl rfl)
  · exact code_ite (hassigning _ rfl rfl) (code_ite (htok _ rfl) (code_ite (htok _ rfl) (htok _ rfl)))
  · exact code_ite (htok _ rfl) (code_ite (htok _ rfl) (htok _ rfl))
  · exact code_ite (code_ite (htok _ rfl) (htok _ rfl)) (htok _ rfl)
  · exact code_ite (htok _ rfl) (code_ite (code_symbol _ _ _ _) (htok _ rfl))
  · exact l.code_at _ _ _
  · exact rfl
  · exact rfl
  · exact rfl
  · exact rfl
  · exact code_ite (code_number _ _ _ _) (code_ite (code_ident _ _ _ _) rfl)

theorem code_here (hbrace : l.ahead.headD '\x00' ≠ '}') : Code l.scan_here := by
  rw [← peek_ch_eq] at hbrace
  exact code_ite rfl (code_char _ _ _ _ hbrace)

theorem inner_here (hbrace : l.ahead.headD '\x00' ≠ '}') : Inner l.scan_here := by
  intro hkind
  have hcode : l.scan_here.1.kind.is_code = true := l.code_here hbrace
  rw [hkind] at hcode
  exact absurd hcode (by decide)

/-- Where code is read no string goes on or ends. -/
theorem here_not_content : l.scan_here.1.kind ≠ .interp_lit ∧ l.scan_here.1.kind ≠ .interp_end := by
  by_cases hbrace : l.ahead.headD '\x00' = '}'
  · have hpeek : l.peek_ch = '}' := l.peek_ch_eq.trans hbrace
    have hkind : l.scan_here.1.kind ≠ .interp_lit ∧ l.scan_here.1.kind ≠ .interp_end := by
      rw [scan_here, hpeek]
      split
      · constructor <;> rintro ⟨⟩
      · simp only [scan_char, scan_close_brace]
        split
        · split
          · constructor <;> rintro ⟨⟩
          · constructor <;> rintro ⟨⟩
        · constructor <;> rintro ⟨⟩
    exact hkind
  · have hcode : l.scan_here.1.kind.is_code = true := l.code_here hbrace
    constructor
    · intro hkind
      rw [hkind] at hcode
      exact absurd hcode (by decide)
    · intro hkind
      rw [hkind] at hcode
      exact absurd hcode (by decide)

end
end Lexer
end stoned
