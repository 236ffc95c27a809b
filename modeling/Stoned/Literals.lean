import Stoned.Lexer

namespace stoned

/-! Literals and names (lexer.c). Each scanner is given the position, line and
column at which its token began. -/

/-- A scanner: a token and the lexer behind it. -/
abbrev Scan : Type := Token × Lexer

def intern (chars : List Char) : String := String.ofList chars

namespace Lexer
variable (l : Lexer) (start line col : Nat)

/-- A token with the text between two positions. -/
def text_tok (kind : TokenKind) (from_pos to_pos : Nat) : Token :=
  { l.make_tok kind start line col with sval := some (l.text from_pos to_pos) }

/-- A number with a base prefix. -/
def scan_prefixed (digit : Char → Bool) : Scan :=
  let l := l.advance.advance.advance_while fun c => digit c || c = '_'
  (l.text_tok start line col .int start l.pos, l)

def is_suffix_end (c : Char) : Bool := !isalnum c && c ≠ '_'

def scan_number : Scan :=
  let prefix_is (lower upper : Char) := l.peek_ch = '0' && (l.peek2 = lower || l.peek2 = upper)
  if prefix_is 'x' 'X' then l.scan_prefixed start line col isxdigit
  else if prefix_is 'b' 'B' then l.scan_prefixed start line col fun c => c = '0' || c = '1'
  else if prefix_is 'o' 'O' then l.scan_prefixed start line col fun c => '0' ≤ c && c ≤ '7'
  else
    let digits (c : Char) := isdigit c || c = '_'
    let l := l.advance_while digits
    let fraction := l.peek_ch = '.' && isdigit l.peek2
    let l := if fraction then l.advance.advance_while digits else l
    let exponent := l.peek_ch = 'e' || l.peek_ch = 'E'
    let l :=
      if exponent then (l.advance.advance_if fun c => c = '+' || c = '-').advance_while isdigit else l
    let t := l.text_tok start line col (if fraction || exponent then .float else .int) start l.pos
    if l.peek_ch = 'r' && is_suffix_end l.peek2 then ({ t with kind := .rational }, l.advance)
    else if l.peek_ch = 'i' && is_suffix_end l.peek2 then ({ t with kind := .imaginary }, l.advance)
    else (t, l)

/-- The content of a single-quoted string: only the quote and the backslash can
be escaped. -/
def string_sq_content : Nat → Lexer → List Char → List Char × Lexer
  | 0, l, buf => (buf, l)
  | fuel + 1, l, buf =>
    if l.at_end || l.peek_ch = '\'' then (buf, l)
    else
      let l := if l.peek_ch = '\\' && (l.peek2 = '\'' || l.peek2 = '\\') then l.advance else l
      string_sq_content fuel l.advance (buf ++ [l.peek_ch])

def scan_string_sq : Scan :=
  let (buf, l) := string_sq_content (l.len - l.pos) l []
  let t := { l.make_tok .string start line col with sval := some (intern buf), slen := buf.length }
  (t, if l.at_end then l else l.advance)

def paired_delim : Char → Char
  | '[' => ']'
  | '(' => ')'
  | '{' => '}'
  | '<' => '>'
  | c => c

/-- The position of the delimiter that closes a percent literal, with the lexer
on it; nothing when the text ends before. -/
def find_close (opening closing : Char) : Nat → Nat → Lexer → Option Lexer
  | 0, _, _ => none
  | fuel + 1, depth, l =>
    if l.at_end then none
    else
      let c := l.peek_ch
      if c = '\\' then
        let l := l.advance
        find_close opening closing fuel depth (if l.at_end then l else l.advance)
      else if opening ≠ closing && c = opening then find_close opening closing fuel (depth + 1) l.advance
      else if c = closing then
        match depth with
        | 0 => some l
        | depth + 1 => find_close opening closing fuel depth l.advance
      else find_close opening closing fuel depth l.advance

/-- The end of a percent literal that is never closed. -/
def unterminated (message : String) : Scan := ({ l.make_tok .error start line col with sval := some message }, l)

/-- The lexer where the text ends, its lines counted. -/
def skip_to_end : Lexer := l.advance_while fun _ => true

def scan_percent_list (kind : TokenKind) : Scan :=
  let l := l.advance
  if l.at_end then l.unterminated start line col "unterminated percent literal"
  else
    let opening := l.peek_ch
    let l := l.advance
    match find_close opening (paired_delim opening) (l.len - l.pos + 1) 0 l with
    | some l' => (l'.text_tok start line col kind l.pos l'.pos, l'.advance)
    | none => l.skip_to_end.unterminated start line col "unterminated percent literal"

/-- The flags behind a regexp. Other letters are passed over. -/
def regexp_flags : Nat → Lexer → Nat → Nat × Lexer
  | 0, l, flags => (flags, l)
  | fuel + 1, l, flags =>
    if l.at_end then (flags, l)
    else
      let c := l.peek_ch
      if c = 'i' then regexp_flags fuel l.advance (flags ||| 1)
      else if c = 'm' then regexp_flags fuel l.advance (flags ||| 2)
      else if c = 'x' then regexp_flags fuel l.advance (flags ||| 4)
      else if isalpha c then regexp_flags fuel l.advance flags
      else (flags, l)

def read_regexp_flags : Nat × Lexer := regexp_flags (l.len - l.pos) l 0

def scan_percent_regexp : Scan :=
  let l := l.advance
  if l.at_end then l.unterminated start line col "unterminated percent literal"
  else
    let opening := l.peek_ch
    let l := l.advance
    match find_close opening (paired_delim opening) (l.len - l.pos + 1) 0 l with
    | some l' =>
      let (flags, l'') := l'.advance.read_regexp_flags
      ({ l'.text_tok start line col .regexp l.pos l'.pos with ival := flags }, l'')
    | none => l.skip_to_end.unterminated start line col "unterminated percent literal"

/-- What a backslash and a character stand for in a character literal. -/
def char_escape : Char → Char
  | 'n' => '\n'
  | 't' => '\t'
  | 'r' => '\x0d'
  | 'e' => '\x1b'
  | c => c

def scan_char_literal : Scan :=
  let t := l.make_tok .string start line col
  if l.at_end then ({ t with sval := some "" }, l)
  else
    let c := l.peek_ch
    let l := l.advance
    if c = '\\' && !l.at_end then
      ({ t with sval := some (intern [char_escape l.peek_ch]), slen := 1 }, l.advance)
    else ({ t with sval := some (intern [c]), slen := 1 }, l)

/-- The name behind `$`: a word or one character. -/
def gvar_name : Lexer :=
  if is_word l.peek_ch then l.advance_while is_word else l.advance_if (· ≠ '\x00')

/-- An operator's symbol. -/
def symbol_operator : Lexer :=
  match l.peek_ch with
  | '+' | '-' | '%' | '~' | '&' | '|' | '^' | '/' => l.advance
  | '*' => l.advance.advance_if (· = '*')
  | '<' =>
    let l := l.advance
    if l.peek_ch = '<' then l.advance
    else if l.peek_ch = '=' then l.advance.advance_if (· = '>') else l
  | '>' => l.advance.advance_if fun c => c = '>' || c = '='
  | '=' =>
    let l := l.advance
    if l.peek_ch = '=' then l.advance.advance_if (· = '=') else l.advance_if (· = '~')
  | '!' => l.advance.advance_if fun c => c = '=' || c = '~'
  | '[' =>
    let l := l.advance
    if l.peek_ch = ']' then l.advance.advance_if (· = '=') else l
  | _ => l

def scan_symbol : Scan :=
  if l.peek_ch = '"' then
    let l := l.advance.imode_push .interp_str
    ({ l.make_tok .interp_beg start line col with ival := 2 }, l)
  else if l.peek_ch = '\'' then
    let (t, l) := l.advance.scan_string_sq start line col
    ({ t with kind := .symbol }, l)
  else
    let from_pos := l.pos
    let l :=
      if isalpha l.peek_ch || l.peek_ch = '_' then
        (l.advance_while is_word).advance_if fun c => c = '?' || c = '!' || c = '='
      else if l.peek_ch = '@' then (l.advance.advance_if (· = '@')).advance_while is_word
      else if l.peek_ch = '$' then l.advance.gvar_name
      else l.symbol_operator
    (l.text_tok start line col .symbol from_pos l.pos, l)

def scan_ident : Scan :=
  let l := (l.advance_while is_word).advance_if fun c => c = '?' || c = '!'
  let word := l.text start l.pos
  match KEYWORDS.find? (·.1 = word) with
  | some (_, kind) => (l.text_tok start line col kind start l.pos, l)
  | none =>
    let kind := if isupper (l.char_at start) then .const else .ident
    (l.text_tok start line col kind start l.pos, l)

end Lexer
end stoned
