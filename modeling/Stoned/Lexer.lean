import Stoned.Token

namespace stoned

/-! The lexer's state and its small steps (lexer.h, lexer.c). -/

inductive LexState where
  | expr_beg | expr_end | expr_arg | expr_mid
  deriving DecidableEq, Repr

inductive LexMode where
  | normal | interp_str | interp_backtick | interp_expr | interp_regex
  deriving DecidableEq, Repr

def LEX_INTERP_DEPTH : Nat := 32

/-- An entry of the mode stack: the braces open inside an interpolated
expression, and whether a regexp is inside a character class. -/
structure LexLevel where
  mode : LexMode
  ibrace : Nat
  regex_in_class : Bool
  deriving DecidableEq, Repr

/-- The lexer. The characters of the source text are its bytes; the mode stack
holds its newest entry first. -/
structure Lexer where
  src : List Char
  pos : Nat
  line : Nat
  line_start : Nat
  state : LexState
  imode : List LexLevel
  hd_active : Bool
  hd_body_end : Nat
  hd_resume : Nat
  hd_resume_line : Nat
  hd_resume_line_start : Nat
  hd_min_indent : Nat
  hd_at_bol : Bool
  hd_imode_depth : Nat
  hd_pending : Bool
  hd_rol_start : Nat
  hd_rol_end : Nat
  hd_rol_line : Nat
  hd_rol_line_start : Nat
  hd_final_resume : Nat
  hd_final_resume_line : Nat
  hd_final_resume_line_start : Nat
  peeked : Option Token
  local_vars : List String
  had_space : Bool
  prev_was_dot : Bool
  after_def : Bool
  percent_close : List Char
  deriving DecidableEq

/-- The lexer at the start of a text. -/
def lexer_init (src : List Char) : Lexer where
  src
  pos := 0
  line := 1
  line_start := 0
  state := .expr_beg
  imode := []
  hd_active := false
  hd_body_end := 0
  hd_resume := 0
  hd_resume_line := 0
  hd_resume_line_start := 0
  hd_min_indent := 0
  hd_at_bol := false
  hd_imode_depth := 0
  hd_pending := false
  hd_rol_start := 0
  hd_rol_end := 0
  hd_rol_line := 0
  hd_rol_line_start := 0
  hd_final_resume := 0
  hd_final_resume_line := 0
  hd_final_resume_line_start := 0
  peeked := none
  local_vars := []
  had_space := false
  prev_was_dot := false
  after_def := false
  percent_close := List.replicate LEX_INTERP_DEPTH '\x00'

def isdigit (c : Char) : Bool := '0' ≤ c && c ≤ '9'
def isupper (c : Char) : Bool := 'A' ≤ c && c ≤ 'Z'
def isalpha (c : Char) : Bool := isupper c || ('a' ≤ c && c ≤ 'z')
def isalnum (c : Char) : Bool := isalpha c || isdigit c
def isxdigit (c : Char) : Bool := isdigit c || ('a' ≤ c && c ≤ 'f') || ('A' ≤ c && c ≤ 'F')
def isspace (c : Char) : Bool := c = ' ' || ('\x09' ≤ c && c ≤ '\x0d')

/-- The characters of names. -/
def is_word (c : Char) : Bool := isalnum c || c = '_'

namespace Lexer
variable (l : Lexer)

def len : Nat := l.src.length

def at_end : Bool := l.len ≤ l.pos

/-- The character at a position; NUL behind the end. -/
def char_at (pos : Nat) : Char := l.src.getD pos '\x00'

def peek_ch : Char := l.char_at l.pos
def peek2 : Char := l.char_at (l.pos + 1)

/-- Steps over one character. -/
def advance : Lexer :=
  let l' := { l with pos := l.pos + 1 }
  if l.peek_ch = '\n' then { l' with line := l.line + 1, line_start := l.pos + 1 } else l'

def col_of (pos : Nat) : Nat := pos - l.line_start + 1

def text (start stop : Nat) : String := String.ofList ((l.src.drop start).take (stop - start))

def imode_depth : Nat := l.imode.length

def imode_top : LexMode := (l.imode.head?).elim .normal LexLevel.mode

def imode_push (mode : LexMode) : Lexer :=
  if l.imode_depth < LEX_INTERP_DEPTH then
    { l with imode := { mode, ibrace := 0, regex_in_class := false } :: l.imode }
  else l

def imode_pop : Lexer := { l with imode := l.imode.tail }

/-- Changes the newest entry of the mode stack. -/
def modify_top (f : LexLevel → LexLevel) : Lexer :=
  { l with imode := l.imode.modify 0 f }

def top_percent_close : Char := l.percent_close.getD (l.imode_depth - 1) '\x00'

def set_percent_close (c : Char) : Lexer :=
  { l with percent_close := l.percent_close.set (l.imode_depth - 1) c }

def is_local_var (name : String) : Bool := l.local_vars.contains name

def lexer_mark_local (name : String) : Lexer :=
  if l.is_local_var name then l else { l with local_vars := name :: l.local_vars }

/-- Steps over the characters of a class, at most `fuel` of them. -/
def skip_while (p : Char → Bool) : Nat → Lexer → Lexer
  | 0, l => l
  | fuel + 1, l => if !l.at_end && p l.peek_ch then skip_while p fuel l.advance else l

/-- Steps over all characters of a class. -/
def advance_while (p : Char → Bool) : Lexer := skip_while p (l.len - l.pos) l

def advance_if (p : Char → Bool) : Lexer := if p l.peek_ch then l.advance else l

/-- Blanks, escaped line ends and comments; the line end too behind a dot,
which is then counted twice. -/
def skip_blanks : Nat → Lexer → Lexer
  | 0, l => l
  | fuel + 1, l =>
    if l.at_end then l
    else
      let c := l.peek_ch
      if c = ' ' || c = '\t' || c = '\x0d' then skip_blanks fuel { l.advance with had_space := true }
      else if c = '\\' && l.peek2 = '\n' then skip_blanks fuel { l.advance.advance with had_space := true }
      else if c = '#' then skip_blanks fuel { l.advance_while (· ≠ '\n') with had_space := true }
      else if c = '\n' && l.prev_was_dot then
        let l' := l.advance
        skip_blanks fuel { l' with line := l'.line + 1, line_start := l'.pos, had_space := true }
      else l

def skip_whitespace : Lexer := skip_blanks (l.len - l.pos) l

/-- A token that began at a position and ends here. -/
def make_tok (kind : TokenKind) (start line col : Nat) : Token := { kind, line, col, len := l.pos - start }

end Lexer
end stoned
