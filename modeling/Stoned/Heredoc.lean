import Stoned.Interpolation

namespace stoned

/-! Heredocs (lexer.c). -/

def is_blank (c : Char) : Bool := c = ' ' || c = '\t'

/-- The indentation of a line that has something else on it. -/
def line_indent (line : List Char) : Option Nat :=
  if line.all is_blank then none else some (line.takeWhile is_blank).length

def heredoc_min_indent (body : List Char) : Nat := (((body.splitOn '\n').filterMap line_indent).min?).getD 0

/-- Drops at most `n` blanks. -/
def drop_blanks : Nat → List Char → List Char
  | n + 1, c :: rest => if is_blank c then drop_blanks n rest else c :: rest
  | _, line => line

/-- The body of a squiggly heredoc without its common indentation. -/
def strip_indent (body : List Char) : List Char :=
  ['\n'].intercalate ((body.splitOn '\n').map (drop_blanks (heredoc_min_indent body)))

/-- What a backslash and a character stand for in a heredoc. -/
def heredoc_escape : Char → List Char
  | 'n' => ['\n']
  | 't' => ['\t']
  | 'r' => ['\x0d']
  | '\\' => ['\\']
  | '#' => ['#']
  | esc => ['\\', esc]

namespace Lexer
variable (l : Lexer) (start line col : Nat)

/-- The text between two positions. -/
def slice (from_pos to_pos : Nat) : List Char := (l.src.drop from_pos).take (to_pos - from_pos)

def preceded_by_class_keyword : Bool :=
  5 ≤ start && l.slice (start - 5) start = "class".toList && (start = 5 || !is_word (l.char_at (start - 6)))

/-- Goes on behind a heredoc: with what is left of the opener's line, if
anything is, and else where the lexer resumes. -/
def leave_heredoc (resume resume_line resume_line_start : Nat) : Lexer :=
  if l.hd_rol_start < l.hd_rol_end then
    { l with
      hd_pending := true
      hd_final_resume := resume
      hd_final_resume_line := resume_line
      hd_final_resume_line_start := resume_line_start
      pos := l.hd_rol_start
      line := l.hd_rol_line
      line_start := l.hd_rol_line_start }
  else { l with pos := resume, line := resume_line, line_start := resume_line_start }

/-- Strips the indentation of a body's line. -/
def skip_indent : Nat → Lexer → Lexer
  | 0, l => l
  | n + 1, l => if l.pos < l.hd_body_end && is_blank l.peek_ch then skip_indent n l.advance else l

/-- The bytes of a body up to an interpolation, the end of the body or, where
indentation is stripped, the end of the line. -/
def heredoc_content : Nat → Lexer → List Char × Lexer
  | 0, l => ([], l)
  | fuel + 1, l =>
    let c := l.peek_ch
    if l.hd_body_end ≤ l.pos || (c = '#' && l.pos + 1 < l.hd_body_end && l.peek2 = '{') then ([], l)
    else if c = '\\' then
      let l := l.advance
      if l.hd_body_end ≤ l.pos then (['\\'], l)
      else
        let (rest, l') := heredoc_content fuel l.advance
        (heredoc_escape l.peek_ch ++ rest, l')
    else if c = '\n' && 0 < l.hd_min_indent then (['\n'], { l.advance with hd_at_bol := true })
    else
      let (rest, l') := heredoc_content fuel l.advance
      (c :: rest, l')

def scan_heredoc_content : Scan :=
  let l :=
    if l.hd_at_bol && 0 < l.hd_min_indent then { skip_indent l.hd_min_indent l with hd_at_bol := false } else l
  if l.hd_body_end ≤ l.pos then
    ({ kind := .interp_end, line := l.line, col := l.col_of l.pos, len := 0 },
      ({ l.imode_pop with hd_active := false }).leave_heredoc l.hd_resume l.hd_resume_line l.hd_resume_line_start)
  else if l.peek_ch = '#' && l.pos + 1 < l.hd_body_end && l.peek2 = '{' then l.begin_interpolation
  else
    let (buf, l') := heredoc_content (l.hd_body_end - l.pos) l
    ({ kind := .interp_lit, line := l.line, col := l.col_of l.pos, len := buf.length
       sval := some (intern buf), slen := buf.length }, l')

/-- Behind the terminator, when the line that begins here is it. -/
def terminator (term : List Char) (indent_ok : Bool) : Option Lexer :=
  let indent := ((l.src.drop l.pos).takeWhile is_blank).length
  let after := l.pos + indent + term.length
  if term.isPrefixOf (l.src.drop (l.pos + indent)) &&
      (l.len ≤ after || l.char_at after = '\n' || l.char_at after = '\x0d') && (indent_ok || indent = 0) then
    some (({ l with pos := after }.advance_if (· = '\x0d')).advance_if (· = '\n'))
  else none

/-- The end of the line. -/
def line_end : Lexer := l.advance_while (· ≠ '\n')

def next_line : Lexer := l.line_end.advance_if (· = '\n')

/-- The end of the body that begins here and the lexer behind its terminator; a
body without one takes the rest of the text. -/
def find_terminator (term : List Char) (indent_ok : Bool) : Nat → Lexer → Nat × Lexer
  | 0, l => (l.len, l)
  | fuel + 1, l =>
    if l.at_end then (l.len, l)
    else
      match l.terminator term indent_ok with
      | some l' => (l.pos, l')
      | none => find_terminator term indent_ok fuel l.next_line

/-- The marks in front of a heredoc's identifier. -/
structure HeredocStyle where
  squiggly : Bool
  indent_ok : Bool
  quote : Option Char

/-- Reads the marks behind `<<`. -/
def heredoc_style : HeredocStyle × Lexer :=
  let squiggly := l.peek_ch = '~'
  let indent_ok := l.peek_ch = '-' || squiggly
  let l := if indent_ok then l.advance else l
  if l.peek_ch = '"' || l.peek_ch = '\'' then ({ squiggly, indent_ok, quote := some l.peek_ch }, l.advance)
  else ({ squiggly, indent_ok, quote := none }, l)

/-- The identifier of a heredoc, without its closing quote. -/
def heredoc_identifier (style : HeredocStyle) : List Char × Lexer :=
  let l' := l.advance_while is_word
  (l.slice l.pos l'.pos, l'.advance_if fun c => style.quote = some c)

/-- Notes what is left of the opener's line and goes on to the next line. -/
def mark_rest_of_line : Lexer :=
  let l' := l.line_end
  { l'.advance_if (· = '\n') with
    hd_rol_start := l.pos
    hd_rol_line := l.line
    hd_rol_line_start := l.line_start
    hd_rol_end := l'.pos }

/-- A heredoc without interpolation is one token. -/
def raw_heredoc (style : HeredocStyle) (body_end : Nat) (behind : Lexer) : Scan :=
  let raw := l.slice l.pos body_end
  let body := if style.squiggly then strip_indent raw else raw
  let l' := behind.leave_heredoc behind.pos behind.line behind.line_start
  ({ l'.make_tok .string start line col with sval := some (intern body), slen := body.length }, l')

/-- The body of a heredoc with interpolation is scanned by later calls. -/
def begin_heredoc (style : HeredocStyle) (body_end : Nat) (behind : Lexer) : Scan :=
  let min_indent := if style.squiggly then heredoc_min_indent (l.slice l.pos body_end) else 0
  let l' := { behind with
    hd_active := true
    hd_body_end := body_end
    hd_resume := behind.pos
    hd_resume_line := behind.line
    hd_resume_line_start := behind.line_start
    hd_min_indent := min_indent
    hd_at_bol := decide (0 < min_indent)
    pos := l.pos
    line := l.line
    line_start := l.line_start }
  let l' := l'.imode_push .interp_str
  (l'.make_tok .interp_beg start line col, { l' with hd_imode_depth := l'.imode_depth })

/-- What follows `<<`, which has been read. -/
def scan_heredoc : Scan :=
  let (style, l) := l.heredoc_style
  if isalpha l.peek_ch || l.peek_ch = '_' then
    let (term, l) := l.heredoc_identifier style
    let l := l.mark_rest_of_line
    let (body_end, behind) := find_terminator term style.indent_ok (l.len - l.pos) l
    if style.quote = some '\'' then l.raw_heredoc start line col style body_end behind
    else l.begin_heredoc start line col style body_end behind
  else (l.make_tok .lshift start line col, l)

end Lexer
end stoned
