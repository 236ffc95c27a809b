import Stoned.Heredoc

namespace stoned

/-! The main scanner (lexer.c, scan and lexer_next). -/

namespace Lexer
variable (l : Lexer) (start line col : Nat)

def tok (kind : TokenKind) : Scan := (l.make_tok kind start line col, l)

/-- An operator behind which an expression begins. -/
def operator (kind : TokenKind) : Scan := { l with state := .expr_beg }.tok start line col kind

/-- An operator, or its compound assignment when `=` follows. -/
def assigning (kind assign : TokenKind) : Scan :=
  if l.peek_ch = '=' then l.advance.operator start line col assign else l.operator start line col kind

def scan_brace : Scan :=
  let l := { l with state := .expr_beg }
  let l :=
    if l.imode_top = .interp_expr then l.modify_top fun level => { level with ibrace := level.ibrace + 1 } else l
  l.tok start line col .lbrace

/-- A closing brace, also that of an interpolation. -/
def scan_close_brace : Scan :=
  let l := { l with state := .expr_end }
  if l.imode_top = .interp_expr then
    if 0 < (l.imode.head?).elim 0 LexLevel.ibrace then
      (l.modify_top fun level => { level with ibrace := level.ibrace - 1 }).tok start line col .rbrace
    else l.imode_pop.tok start line col .interp_expr_end
  else l.tok start line col .rbrace

/-- Whether an expression begins here, or an argument behind a space. -/
def begins_operand : Bool :=
  l.state = .expr_beg || l.state = .expr_mid || (l.state = .expr_arg && l.had_space)

def scan_question : Scan :=
  if l.begins_operand && !l.at_end && !isspace l.peek_ch then l.scan_char_literal start line col
  else l.tok start line col .question

/-- The content of a `%q` literal: the end of the text, or just behind its
closing delimiter, and whether it was found. -/
def percent_q_content (opening closing : Char) : Nat → Nat → Lexer → Lexer × Bool
  | _, 0, l => (l, true)
  | 0, _ + 1, l => (l, false)
  | fuel + 1, depth + 1, l =>
    if l.at_end then (l, false)
    else
      let c := l.peek_ch
      let l := l.advance
      if c = '\\' && !l.at_end then percent_q_content opening closing fuel (depth + 1) l.advance
      else if c = opening then percent_q_content opening closing fuel (depth + 2) l
      else if c = closing then percent_q_content opening closing fuel depth l
      else percent_q_content opening closing fuel (depth + 1) l

/-- `%q`, which is one token. The length of its text is not set. -/
def scan_percent_q (opening : Char) : Scan :=
  let (l', closed) := percent_q_content opening (paired_delim opening) (l.len - l.pos + 1) 1 l
  let t := l'.text_tok start line col .string l.pos (l'.pos - if closed then 1 else 0)
  (t, { l' with state := .expr_end })

/-- `%(...)` and `%Q`, whose content is scanned by later calls. -/
def scan_percent_string (opening : Char) : Scan :=
  let l := (l.imode_push .interp_str).set_percent_close (paired_delim opening)
  l.tok start line col .interp_beg

def is_percent_delim (c : Char) : Bool :=
  c = '(' || c = '{' || c = '[' || c = '<' || c = 'Q' || c = 'q'

def scan_percent : Scan :=
  let c := l.peek_ch
  if c = '=' then l.advance.operator start line col .percent_eq
  else if c = 'w' then l.scan_percent_list start line col .words
  else if c = 'i' then l.scan_percent_list start line col .symbols
  else if c = 'r' then l.scan_percent_regexp start line col
  else if !l.after_def && !l.prev_was_dot &&
      (l.state = .expr_beg || l.state = .expr_mid || l.state = .expr_arg) && is_percent_delim c then
    let l := l.advance
    if c = 'q' then l.advance.scan_percent_q start line col l.peek_ch
    else if c = 'Q' then l.advance.scan_percent_string start line col l.peek_ch
    else l.scan_percent_string start line col c
  else l.operator start line col .percent

def scan_star : Scan :=
  if l.peek_ch = '*' then l.advance.assigning start line col .star2 .star2_eq
  else l.assigning start line col .star .star_eq

def scan_slash : Scan :=
  if !l.after_def && (l.state = .expr_beg || l.state = .expr_mid ||
      (l.state = .expr_arg && l.had_space && l.peek_ch ≠ ' ' && l.peek_ch ≠ '\t')) then
    l.scan_regexp start line col
  else l.assigning start line col .slash .slash_eq

def scan_amp : Scan :=
  if l.peek_ch = '.' then { l.advance with prev_was_dot := true }.tok start line col .anddot
  else if l.peek_ch = '&' then l.advance.assigning start line col .amp2 .amp2_eq
  else l.assigning start line col .amp .amp_eq

def scan_pipe : Scan :=
  if l.peek_ch = '|' then l.advance.assigning start line col .pipe2 .pipe2_eq
  else l.assigning start line col .pipe .pipe_eq

/-- The characters behind `<<` with which a heredoc is tried. -/
def opens_heredoc (c : Char) : Bool := c = '-' || c = '~' || c = '"' || c = '\'' || isalpha c || c = '_'

def scan_less : Scan :=
  if l.peek_ch = '<' then
    let l := l.advance
    if !l.preceded_by_class_keyword start && opens_heredoc l.peek_ch then l.scan_heredoc start line col
    else l.assigning start line col .lshift .lshift_eq
  else if l.peek_ch = '=' then
    let l := l.advance
    if l.peek_ch = '>' then l.advance.operator start line col .spaceship else l.operator start line col .leq
  else l.operator start line col .lt

def scan_greater : Scan :=
  if l.peek_ch = '>' then l.advance.assigning start line col .rshift .rshift_eq
  else l.assigning start line col .gt .geq

def scan_equals : Scan :=
  if l.peek_ch = '=' then l.advance.assigning start line col .eq2 .eq3
  else if l.peek_ch = '>' then l.advance.tok start line col .arrow
  else if l.peek_ch = '~' then l.advance.operator start line col .match_
  else l.operator start line col .eq

def scan_bang : Scan :=
  if l.peek_ch = '=' then l.advance.operator start line col .neq
  else if l.peek_ch = '~' then l.advance.operator start line col .nmatch
  else l.tok start line col .bang

def scan_minus : Scan :=
  if l.peek_ch = '>' then l.advance.tok start line col .lambda else l.assigning start line col .minus .minus_eq

def scan_dot : Scan :=
  if l.peek_ch = '.' then
    let l := l.advance
    if l.peek_ch = '.' then l.advance.tok start line col .dot3 else l.tok start line col .dot2
  else { l with prev_was_dot := true }.tok start line col .dot

def begins_symbol (c : Char) : Bool :=
  isalpha c || "_\"'@$+-*/%<>=!&|^~[".toList.contains c

def scan_colon : Scan :=
  if l.peek_ch = ':' then l.advance.tok start line col .colon2
  else if (l.state = .expr_beg || (l.state = .expr_arg && l.had_space) || (l.state = .expr_end && l.had_space)) &&
      begins_symbol l.peek_ch then l.scan_symbol start line col
  else l.tok start line col .colon

def scan_at : Scan :=
  let (kind, l) := if l.peek_ch = '@' then (TokenKind.cvar, l.advance) else (.ivar, l)
  let l' := l.advance_while is_word
  (l'.text_tok start line col kind l.pos l'.pos, l')

def scan_gvar : Scan :=
  let l' := l.gvar_name
  (l'.text_tok start line col .gvar l.pos l'.pos, l')

/-- A token that begins with `c`, which has been read. -/
def scan_char (c : Char) : Scan :=
  match c with
  | '\n' => l.tok start line col .newline
  | ';' => l.tok start line col .semicolon
  | ',' => l.tok start line col .comma
  | '(' => l.operator start line col .lparen
  | ')' => { l with state := .expr_end }.tok start line col .rparen
  | '[' => l.operator start line col .lbracket
  | ']' => { l with state := .expr_end }.tok start line col .rbracket
  | '{' => l.scan_brace start line col
  | '}' => l.scan_close_brace start line col
  | '~' => l.tok start line col .tilde
  | '?' => l.scan_question start line col
  | '+' => l.assigning start line col .plus .plus_eq
  | '-' => l.scan_minus start line col
  | '%' => l.scan_percent start line col
  | '^' => l.assigning start line col .caret .caret_eq
  | '*' => l.scan_star start line col
  | '/' => l.scan_slash start line col
  | '&' => l.scan_amp start line col
  | '|' => l.scan_pipe start line col
  | '<' => l.scan_less start line col
  | '>' => l.scan_greater start line col
  | '=' => l.scan_equals start line col
  | '!' => l.scan_bang start line col
  | '.' => l.scan_dot start line col
  | ':' => l.scan_colon start line col
  | '@' => l.scan_at start line col
  | '$' => l.scan_gvar start line col
  | '\'' => l.scan_string_sq start line col
  | '"' => (l.imode_push .interp_str).tok start line col .interp_beg
  | '\x60' =>
    let l := l.imode_push .interp_backtick
    ({ l.make_tok .interp_beg start line col with ival := 1 }, l)
  | c =>
    let back := { l with pos := l.pos - 1 }
    if isdigit c then back.scan_number start line col
    else if isalpha c || c = '_' then back.scan_ident start line col
    else ({ l.make_tok .error start line col with sval := some (intern [c]) }, l)

/-- The token that begins where the lexer is. -/
def scan_here : Scan :=
  if l.at_end then ({ kind := .eof, line := l.line, col := l.col_of l.pos, len := 0 }, l)
  else l.advance.scan_char l.pos l.line (l.col_of l.pos) l.peek_ch

/-- Passes over what stands between tokens, and from the end of an opener's
line to where its heredoc resumes. -/
def skip_between : Lexer :=
  let l := { l with had_space := false }.skip_whitespace
  if l.hd_pending && l.hd_rol_end ≤ l.pos then
    { l with
      hd_pending := false
      pos := l.hd_final_resume
      line := l.hd_final_resume_line
      line_start := l.hd_final_resume_line_start
      had_space := false }.skip_whitespace
  else l

def scan : Scan :=
  match l.imode_top with
  | .interp_str =>
    if l.hd_active && l.imode_depth = l.hd_imode_depth then l.scan_heredoc_content else l.scan_interp_str_content
  | .interp_backtick => l.scan_interp_str_content
  | .interp_regex => l.scan_interp_regex_content
  | .normal | .interp_expr => l.skip_between.scan_here

/-- The tokens behind which an operand has ended. -/
def ends_operand : TokenKind → Bool
  | .const | .ivar | .cvar | .gvar | .int | .float | .rational | .imaginary | .string | .symbol | .words
  | .symbols | .regexp | .interp_end | .nil | .true | .false | .self | .rparen | .rbracket | .rbrace | .retry_ => true
  | _ => false

/-- The lexer behind a token that has been taken. -/
def after_token (t : Token) : Lexer :=
  let l :=
    if t.kind = .ident then
      { l with
        state := if l.prev_was_dot || l.is_local_var (t.sval.getD "") then .expr_end else .expr_arg
        prev_was_dot := false }
    else if ends_operand t.kind then { l with state := .expr_end, prev_was_dot := false }
    else
      { l with
        state := .expr_beg
        prev_was_dot := l.prev_was_dot && (t.kind = .dot || t.kind = .anddot) }
  { l with after_def := t.kind = .def_ || t.kind = .alias_ }

def lexer_next : Scan :=
  let (t, l) :=
    match l.peeked with
    | some t => (t, { l with peeked := none })
    | none => l.scan
  (t, l.after_token t)

def lexer_peek : Scan :=
  match l.peeked with
  | some t => (t, l)
  | none =>
    let (t, l) := l.scan
    (t, { l with peeked := some t })

end Lexer
end stoned
