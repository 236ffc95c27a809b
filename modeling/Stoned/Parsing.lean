import Stoned.Statement

namespace stoned.parser

open program

/-! Runs of the parser. -/

section
variable {L : Type} [TokenSource L] {α : Type}

/-- The machine on which the parser's calls are answered at will. -/
abbrev answering (answers : Oracle parser_calls (Parser L)) :
    Machine (parser_ops.withCalls parser_calls) (Parser L) := (parser_machine L).withCalls answers

/-- The machine on which the parser runs, with calls nested as deep as it takes. -/
noncomputable abbrev parsing (num : Numerals) (L : Type) [TokenSource L] :
    Machine (parser_ops.withCalls parser_calls) (Parser L) := answering (limit (body num) (parser_machine L))

theorem run_call (num : Numerals) (c : ParserCall) (p : Parser L) :
    (call c).run (parsing num L) p = (body num c).run (parsing num L) p :=
  (run_perform (S := parser_ops.withCalls parser_calls) (.inr c) p).trans (limit_call (C := parser_calls) c p)

section
variable (num : Numerals) (p : Parser L)

theorem run_skip_terminators :
    skip_terminators.run (parsing num L) p = skip_terminators_body.run (parsing num L) p := run_call num _ p

theorem run_program_stmts (stmts : List Node) :
    (program_stmts stmts).run (parsing num L) p = (program_stmts_body stmts).run (parsing num L) p := run_call num _ p

theorem run_parse_stmt : parse_stmt.run (parsing num L) p = parse_stmt_body.run (parsing num L) p := run_call num _ p

theorem run_parse_expr (min_bp : Nat) :
    (parse_expr min_bp).run (parsing num L) p = (parse_expr_body min_bp).run (parsing num L) p := run_call num _ p

theorem run_parse_expr_continue (left : Node) (min_bp : Nat) :
    (parse_expr_continue left min_bp).run (parsing num L) p =
      (parse_expr_continue_body left min_bp).run (parsing num L) p := run_call num _ p

theorem run_parse_primary :
    parse_primary.run (parsing num L) p = (parse_primary_body num).run (parsing num L) p := run_call num _ p

theorem run_interp_segments (is_regex : Bool) (rope : Option (RopeNode Node)) (regex_flags : Nat) :
    (interp_segments is_regex rope regex_flags).run (parsing num L) p =
      (interp_segments_body is_regex rope regex_flags).run (parsing num L) p := run_call num _ p

theorem run_interp_strings (is_backtick is_regex : Bool) (rope : Option (RopeNode Node)) (regex_flags : Nat) :
    (interp_strings is_backtick is_regex rope regex_flags).run (parsing num L) p =
      (interp_strings_body is_backtick is_regex rope regex_flags).run (parsing num L) p := run_call num _ p

end

variable (answers : Oracle parser_calls (Parser L)) (p : Parser L)

theorem run_peek : peek.run (answering answers) p = some (p.peek.1, p.peek.2) := rfl

theorem run_advance : advance.run (answering answers) p = some (p.advance.1, p.advance.2) := rfl

theorem run_mode : mode.run (answering answers) p = some (p.mode, p) := rfl

theorem run_error (message : String) (t : Token) :
    (error message t).run (answering answers) p = some ((), p.error message t.line t.col) := rfl

theorem run_check (kind : TokenKind) :
    (check kind).run (answering answers) p = some (decide (p.peek.1.kind = kind), p.peek.2) := rfl

theorem run_check_any (kinds : TokenKind → Bool) :
    (check_any kinds).run (answering answers) p = some (kinds p.peek.1.kind, p.peek.2) := rfl

theorem run_accept (kind : TokenKind) :
    (accept kind).run (answering answers) p =
      some (if p.peek.1.kind = kind then (true, p.peek.2.advance.2) else (false, p.peek.2)) := by
  rw [accept, run_bind_some (run_check answers p kind)]
  by_cases h : p.peek.1.kind = kind
  · simp only [h, decide_true, if_true]
    rfl
  · simp only [h, decide_false, Bool.false_eq_true, if_false]
    rfl

theorem run_expect (kind : TokenKind) (message : String) :
    (expect kind message).run (answering answers) p =
      some ((), if p.peek.1.kind = kind then p.peek.2.advance.2
        else p.peek.2.error message p.peek.1.line p.peek.1.col) := by
  rw [expect, run_bind_some (run_peek answers p)]
  by_cases h : p.peek.1.kind = kind
  · simp only [h, if_true]
    rfl
  · simp only [h, if_false]
    rfl

end

theorem error_ne_nil {L : Type} (p : Parser L) (message : String) (line col : Nat) : (p.error message line col).errors ≠ [] := by
  simp only [Parser.error]
  split
  · exact List.append_ne_nil_of_right_ne_nil _ nofun
  case isFalse hfull =>
    intro hnil
    rw [hnil] at hfull
    exact hfull (by decide)

section
variable {num : Numerals} {L : Type} [TokenSource L] {α : Type} {program : Parse α} {p p' : Parser L} {value : α}

/-- Errors are never taken back. -/
theorem errors_stay (h : program.run (parsing num L) p = some (value, p')) (hp : p.errors ≠ []) : p'.errors ≠ [] := by
  refine limit_preserves (I := fun p => p.errors ≠ []) ?_ h hp
  intro op p answer p' hexec hp
  cases op <;> cases hexec <;> try exact hp
  simp only [Parser.error]
  split
  · exact List.append_ne_nil_of_left_ne_nil hp _
  · exact hp

/-- The parser panics only behind an error. -/
theorem panic_stays (h : program.run (parsing num L) p = some (value, p')) (hp : p.panic = true → p.errors ≠ []) :
    p'.panic = true → p'.errors ≠ [] := by
  refine limit_preserves (I := fun p => p.panic = true → p.errors ≠ []) ?_ h hp
  intro op p answer p' hexec hp
  cases op <;> cases hexec <;> try exact hp
  · exact fun _ => error_ne_nil p _ _ _
  · exact nofun

end
end stoned.parser
