import Stoned.Moves

namespace stoned

/-! What the scanners of tokens other than heredocs leave as it is. -/

namespace Lexer

/-- The source text and what is known of the current heredoc are as they were. -/
inductive Framed (l : Lexer) : Lexer → Prop where
  | mk (pos line line_start : Nat) (state : LexState) (imode : List LexLevel) (hd_at_bol : Bool)
      (peeked : Option Token) (local_vars : List String) (had_space prev_was_dot after_def : Bool)
      (percent_close : List Char) :
    Framed l { l with
      pos, line, line_start, state, imode, hd_at_bol, peeked, local_vars, had_space, prev_was_dot, after_def,
      percent_close }

/-- A token inside a statement, behind which the heredoc is as it was. -/
def Scanned (l : Lexer) (r : Scan) : Prop := Framed l r.2 ∧ r.1.kind.ends_statement = false

section
variable {l l' l'' : Lexer}

theorem Framed.refl (l : Lexer) : Framed l l := .mk ..

theorem Framed.trans : Framed l l' → Framed l' l'' → Framed l l''
  | .mk .., .mk .. => .mk ..

theorem Passed.framed : Passed l l' → Framed l l'
  | .mk .. => .mk ..

theorem Framed.ite {c : Prop} [Decidable c] (h : Framed l l') (h' : Framed l l'') :
    Framed l (if c then l' else l'') := by
  split
  · exact h
  · exact h'

theorem Framed.src (h : Framed l l') : l'.src = l.src := by cases h; rfl
theorem Framed.hd_active (h : Framed l l') : l'.hd_active = l.hd_active := by cases h; rfl
theorem Framed.hd_pending (h : Framed l l') : l'.hd_pending = l.hd_pending := by cases h; rfl
theorem Framed.hd_rol_start (h : Framed l l') : l'.hd_rol_start = l.hd_rol_start := by cases h; rfl
theorem Framed.hd_rol_end (h : Framed l l') : l'.hd_rol_end = l.hd_rol_end := by cases h; rfl
theorem Framed.hd_body_end (h : Framed l l') : l'.hd_body_end = l.hd_body_end := by cases h; rfl
theorem Framed.hd_resume (h : Framed l l') : l'.hd_resume = l.hd_resume := by cases h; rfl
theorem Framed.hd_final_resume (h : Framed l l') : l'.hd_final_resume = l.hd_final_resume := by cases h; rfl

theorem Moved.framed (h : Moved l l') : Framed l l' := by
  induction h with
  | refl => exact .refl l
  | @advance l' _ ih => exact ih.trans l'.passed_advance.framed
  | expect | top | close => exact Framed.trans ‹_› (.mk ..)

theorem framed_imode_push (l : Lexer) (mode : LexMode) : Framed l (l.imode_push mode) := by
  unfold imode_push
  split
  · exact .mk ..
  · exact .refl l

theorem Turned.framed {turn : Turn} (h : Turned l turn l') : Framed l l' := by
  cases h with
  | stays hmoved => exact hmoved.framed
  | opens mode hmoved hbehind => exact (hmoved.framed.trans (framed_imode_push _ mode)).trans hbehind.framed
  | closes hmoved hmode => exact hmoved.framed.trans (.mk ..)

theorem Stepped.scanned {line col : Nat} {r : Scan} (h : Stepped line col l r) : Scanned l r :=
  ⟨h.turned.framed, h.continues⟩

variable (l)

theorem framed_advance : Framed l l.advance := l.moved_advance.framed
theorem framed_advance_while (p : Char → Bool) : Framed l (l.advance_while p) := (l.moved_advance_while p).framed
theorem framed_advance_if (p : Char → Bool) : Framed l (l.advance_if p) := (l.moved_advance_if p).framed
theorem framed_string_escape : Framed l l.string_escape.2 := l.moved_string_escape.framed
theorem framed_modify_top (f : LexLevel → LexLevel) : Framed l (l.modify_top f) := .mk ..

theorem scanned_begin_interpolation : Scanned l l.begin_interpolation := l.stepped_begin_interpolation.scanned

theorem scanned_interp_str_content : Scanned l l.scan_interp_str_content := by
  simp only [scan_interp_str_content]
  split
  · exact ⟨(Framed.ite (.refl l) l.framed_advance).trans (.mk ..), rfl⟩
  split
  · exact l.scanned_begin_interpolation
  · exact ⟨(l.moved_string_content l.closing_char (l.len - l.pos)).framed, rfl⟩

theorem scanned_interp_regex_content : Scanned l l.scan_interp_regex_content := by
  simp only [scan_interp_regex_content]
  split_ifs
  · exact ⟨(l.framed_advance.trans (moved_regexp_flags _ _ _).framed).trans (.mk ..), rfl⟩
  · exact ⟨.mk .., rfl⟩
  · exact l.scanned_begin_interpolation
  · exact ⟨(l.moved_regexp_content (l.len - l.pos)).framed, rfl⟩

theorem scanned_here (hend : l.at_end = false) (hnewline : l.peek_ch ≠ '\n') (hopener : l.at_opener = false) :
    Scanned l l.scan_here := (l.stepped_here hend hnewline hopener).scanned

end
end Lexer
end stoned
