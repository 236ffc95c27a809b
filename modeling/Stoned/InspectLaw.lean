import Stoned.InString
import Stoned.RopeLaw

namespace stoned.parser

open program

/-! What the text val_inspect writes for a string is parsed as. -/

open Lexer (Inside string_mode hole_mode)

section
variable {p : Parser Lexer} {imode : List LexLevel} {text : List Char}

theorem peek_eq (h : p.lexer.peeked = none) :
    p.peek = (p.lexer.scan.1, { p with lexer := p.lexer.scan.2.seen p.lexer.scan.1 }) := by
  rw [Parser.peek]
  change (p.lexer.lexer_peek.1, { p with lexer := p.lexer.lexer_peek.2 }) = _
  rw [Lexer.lexer_peek_scan h]

theorem peek_seen (p : Parser Lexer) (l : Lexer) (t : Token) :
    ({ p with lexer := l.seen t } : Parser Lexer).peek = (t, { p with lexer := l.seen t }) := rfl

theorem advance_seen (p : Parser Lexer) {l : Lexer} (h : l.peeked = none) (t : Token) :
    ({ p with lexer := l.seen t } : Parser Lexer).advance = (t, { p with lexer := l.after_token t }) := by
  rw [Parser.advance]
  change ((l.seen t).lexer_next.1, { p with lexer := (l.seen t).lexer_next.2 }) = _
  rw [Lexer.lexer_next_seen h]

end

section
variable {num : Numerals} {p : Parser Lexer} {rope : Option (RopeNode Node)} {regex_flags : Nat}

/-- The rest of a string's segments. -/
noncomputable def segments (num : Numerals) (rope : Option (RopeNode Node)) (regex_flags : Nat) (p : Parser Lexer) :
    Option ((Option (RopeNode Node) × Nat) × Parser Lexer) :=
  (interp_segments false rope regex_flags).run (parsing num Lexer) p

theorem segments_eq (h : p.lexer.peeked = none) :
    segments num rope regex_flags p =
      (let seg := p.lexer.scan.1
      if seg.kind = .interp_end || seg.kind = .eof then do
        let _ ← advance
        let flagged := false && seg.ival &&& 0x100 ≠ 0
        return (rope, if flagged then seg.ival - 0x100 else regex_flags)
      else if seg.kind = .interp_lit then do
        let _ ← advance
        interp_segments false (some (rope_append rope (.lit seg.text))) regex_flags
      else if seg.kind = .interp_expr_beg then do
        let _ ← advance
        if ← check .interp_expr_end then
          let _ ← advance
          interp_segments false rope regex_flags
        else
          let expr ← parse_expr 0
          expect .interp_expr_end "expected '\x7d' to close interpolation"
          interp_segments false (some (rope_append rope (.expr (node_of expr)))) regex_flags
      else do
        error "unexpected token inside string interpolation" seg
        let _ ← advance
        return (rope, regex_flags) : Parse (Option (RopeNode Node) × Nat)).run (parsing num Lexer)
        { p with lexer := p.lexer.scan.2.seen p.lexer.scan.1 } := by
  rw [segments, run_interp_segments, interp_segments_body, run_bind_some (run_peek ..), peek_eq h]

/-- The closing quote ends the segments. -/
theorem segments_quote {rest : List Char} (h : Inside string_mode p.lexer ('"' :: rest)) :
    ∃ l, Inside [] l rest ∧ segments num rope regex_flags p = some ((rope, regex_flags), { p with lexer := l }) := by
  obtain ⟨hkind, hinside⟩ := h.scan_quote
  refine ⟨_, hinside.after_token p.lexer.scan.1, ?_⟩
  rw [segments_eq h.peeked]
  simp only [hkind, decide_true, Bool.true_or, if_true]
  rw [run_bind_some (run_advance ..), advance_seen p hinside.peeked]
  rfl

/-- Bytes without an interpolation are a literal part. -/
theorem segments_bytes {ascii_8bit : Bool} {s : List UInt8} {tail : List Char}
    (h : Inside string_mode p.lexer (inspect_bytes ascii_8bit s ++ tail)) (hne : s ≠ [])
    (hopener : ¬interpolation_opener <:+: s) (hstops : stops_content tail = true) :
    ∃ l, Inside string_mode l tail ∧ segments num rope regex_flags p =
      segments num (some (rope_append rope (.lit (String.ofList (s.map char_of))))) regex_flags { p with lexer := l } := by
  obtain ⟨hkind, htext, hinside⟩ := h.scan_bytes hne hopener hstops
  refine ⟨_, hinside.after_token p.lexer.scan.1, ?_⟩
  have hbytes : p.lexer.scan.1.text = String.ofList (s.map char_of) := by
    simp only [Token.text, Token.name, hkind, htext, Option.getD_some]
  rw [segments_eq h.peeked]
  simp only [hkind, reduceCtorEq, decide_false, Bool.or_self, Bool.false_eq_true, if_false, if_true, hbytes]
  rw [run_bind_some (run_advance ..), advance_seen p hinside.peeked]
  rfl

/-- A hole that is empty leaves no part; another one is there for good. -/
theorem segments_hole {ascii_8bit : Bool} {s : List UInt8}
    (h : Inside string_mode p.lexer ('#' :: '{' :: (inspect_bytes ascii_8bit s ++ ['"']))) :
    (∃ k rest l, s = List.replicate k 0x20 ++ 0x7d :: rest ∧
      Inside string_mode l (inspect_bytes ascii_8bit rest ++ ['"']) ∧
      segments num rope regex_flags p = segments num rope regex_flags { p with lexer := l }) ∨
    ∀ r p', segments num rope regex_flags p = some (r, p') → is_dynamic r.1 = true := by
  obtain ⟨hkind, hhole⟩ := h.scan_opener
  have hbehind := hhole.after_token p.lexer.scan.1
  rw [segments_eq h.peeked]
  simp only [hkind, reduceCtorEq, decide_false, Bool.or_self, Bool.false_eq_true, if_false, if_true]
  rw [run_bind_some (run_advance ..), advance_seen p hhole.peeked]
  generalize p.lexer.scan.2.after_token p.lexer.scan.1 = l at hbehind
  rw [run_bind_some (run_check ..), peek_eq hbehind.peeked]
  obtain ⟨k, rest, hs, hclose, hinside⟩ | hother := hbehind.scan_hole
  · refine .inl ⟨k, rest, _, hs, hinside.after_token l.scan.1, ?_⟩
    simp only [hclose, decide_true, if_true]
    rw [run_bind_some (run_advance ..), advance_seen p hinside.peeked]
    rfl
  · refine .inr fun r p' hrun => ?_
    simp only [hother, decide_false, Bool.false_eq_true, if_false] at hrun
    obtain ⟨expr, q, _, hrun⟩ := run_bind_eq_some_iff.mp hrun
    obtain ⟨_, q, _, hrun⟩ := run_bind_eq_some_iff.mp hrun
    exact rope_spec_holds hrun (is_dynamic_expr rope (node_of expr))

end
end stoned.parser
