import Stoned.Literals

namespace stoned

/-! Strings and regexps with interpolated expressions (lexer.c). -/

/-- The character with the low byte of a number. -/
def byte (n : Nat) : Char := Char.ofNat (n % 256)

def hex_value (h : Char) : Option Nat :=
  if isdigit h then some (h.toNat - '0'.toNat)
  else if 'a' ≤ h && h ≤ 'f' then some (h.toNat - 'a'.toNat + 10)
  else if 'A' ≤ h && h ≤ 'F' then some (h.toNat - 'A'.toNat + 10)
  else none

def is_octal (c : Char) : Bool := '0' ≤ c && c ≤ '7'

/-- The UTF-8 bytes of a code point. -/
def utf8_bytes (cp : Nat) : List Char :=
  if cp < 0x80 then [byte cp]
  else if cp < 0x800 then [byte (0xC0 ||| (cp >>> 6)), byte (0x80 ||| (cp &&& 0x3F))]
  else if cp < 0x10000 then
    [byte (0xE0 ||| (cp >>> 12)), byte (0x80 ||| ((cp >>> 6) &&& 0x3F)), byte (0x80 ||| (cp &&& 0x3F))]
  else
    [byte (0xF0 ||| (cp >>> 18)), byte (0x80 ||| ((cp >>> 12) &&& 0x3F)), byte (0x80 ||| ((cp >>> 6) &&& 0x3F)),
     byte (0x80 ||| (cp &&& 0x3F))]

/-- One more hexadecimal digit of a code point, in 64 bits. Other characters
are passed over. -/
def push_hex (cp : Nat) (h : Char) : Nat :=
  match hex_value h with
  | some digit => (cp * 16 + digit) % 2 ^ 64
  | none => cp

namespace Lexer
variable (l : Lexer)

/-- Up to `count` hexadecimal digits: their value and how many there were. -/
def hex_digits : Nat → Lexer → Nat → Nat → Nat × Nat × Lexer
  | 0, l, val, digits => (val, digits, l)
  | count + 1, l, val, digits =>
    match if l.at_end then none else hex_value l.peek_ch with
    | some digit => hex_digits count l.advance (val * 16 + digit) (digits + 1)
    | none => (val, digits, l)

/-- Up to `count` more octal digits. -/
def octal_digits : Nat → Lexer → Nat → Nat × Lexer
  | 0, l, val => (val, l)
  | count + 1, l, val =>
    if !l.at_end && is_octal l.peek_ch then octal_digits count l.advance (val * 8 + (l.peek_ch.toNat - '0'.toNat))
    else (val, l)

/-- The digits between the braces of `\u{...}`. -/
def braced_digits : Nat → Lexer → Nat → Nat × Lexer
  | 0, l, cp => (cp, l)
  | fuel + 1, l, cp =>
    if l.at_end || l.peek_ch = '}' then (cp, l) else braced_digits fuel l.advance (push_hex cp l.peek_ch)

/-- The four characters of `\uHHHH`, fewer at the end of the text. -/
def plain_digits : Nat → Lexer → Nat → Nat × Lexer
  | 0, l, cp => (cp, l)
  | count + 1, l, cp => if l.at_end then (cp, l) else plain_digits count l.advance (push_hex cp l.peek_ch)

def hex_escape : List Char × Lexer :=
  let (val, digits, l) := hex_digits 2 l 0 0
  (if digits = 0 then ['x'] else [byte val], l)

/-- A code point of four digits is never beyond 16 bits. -/
def unicode_escape : List Char × Lexer :=
  if !l.at_end && l.peek_ch = '{' then
    let (cp, l) := braced_digits (l.len - l.pos) l.advance 0
    (utf8_bytes cp, if l.at_end then l else l.advance)
  else
    let (cp, l) := plain_digits 4 l 0
    (utf8_bytes cp, l)

/-- What a backslash and a character stand for by themselves. -/
def simple_escape : Char → Option Char
  | 'n' => some '\n'
  | 't' => some '\t'
  | 'r' => some '\x0d'
  | 'e' => some '\x1b'
  | 'a' => some '\x07'
  | 'b' => some '\x08'
  | 'f' => some '\x0c'
  | 'v' => some '\x0b'
  | 's' => some ' '
  | '\\' => some '\\'
  | '"' => some '"'
  | '\x60' => some '\x60'
  | '#' => some '#'
  | '\'' => some '\''
  | '/' => some '/'
  | _ => none

/-- The bytes of an escape sequence whose backslash has been read. -/
def string_escape : List Char × Lexer :=
  let esc := l.peek_ch
  let l := l.advance
  match simple_escape esc with
  | some c => ([c], l)
  | none =>
    if esc = 'x' then l.hex_escape
    else if esc = 'u' then l.unicode_escape
    else if is_octal esc then
      let (val, l) := octal_digits 2 l (esc.toNat - '0'.toNat)
      ([byte val], l)
    else (['\\', esc], l)

def at_interpolation : Bool := l.peek_ch = '#' && l.peek2 = '{'

/-- The bytes up to the closing delimiter, an interpolation or the end of the
text. -/
def string_content (close_ch : Char) : Nat → Lexer → List Char × Lexer
  | 0, l => ([], l)
  | fuel + 1, l =>
    if l.at_end || l.peek_ch = close_ch || l.at_interpolation then ([], l)
    else if l.peek_ch = '\\' then
      if l.advance.at_end then ([], l.advance)
      else
        let (bytes, l) := l.advance.string_escape
        let (rest, l) := string_content close_ch fuel l
        (bytes ++ rest, l)
    else
      let (rest, l') := string_content close_ch fuel l.advance
      (l.peek_ch :: rest, l')

/-- The start of an interpolated expression. -/
def begin_interpolation : Scan :=
  ({ kind := .interp_expr_beg, line := l.line, col := l.col_of l.pos, len := 2 },
    l.advance.advance.imode_push .interp_expr)

/-- A literal segment that began where `l` is and ends where `l'` is. -/
def literal_segment (buf : List Char) (l' : Lexer) : Scan :=
  ({ kind := .interp_lit, line := l.line, col := l.col_of l.pos, len := l'.pos - l.pos
     sval := some (intern buf), slen := buf.length }, l')

def closing_char : Char :=
  if l.imode_top = .interp_backtick then '\x60'
  else if l.top_percent_close ≠ '\x00' then l.top_percent_close
  else '"'

def scan_interp_str_content : Scan :=
  let close_ch := l.closing_char
  if l.at_end || l.peek_ch = close_ch then
    let l' := if l.at_end then l else l.advance
    ({ kind := .interp_end, line := l.line, col := l.col_of l.pos, len := 1
       ival := if close_ch = '\x60' then 1 else 0 }, (l'.set_percent_close '\x00').imode_pop)
  else if l.at_interpolation then l.begin_interpolation
  else
    let (buf, l') := string_content close_ch (l.len - l.pos) l
    l.literal_segment buf l'

/-- The token that ends a regexp, marked and with its flags. -/
def regexp_end (flags : Nat) (l' : Lexer) : Scan :=
  ({ kind := .interp_end, line := l.line, col := l.col_of l.pos, len := 0, ival := flags ||| 0x100 }, l'.imode_pop)

def in_class : Bool := (l.imode.head?).elim false LexLevel.regex_in_class

def set_in_class (in_class : Bool) : Lexer :=
  l.modify_top fun level => { level with regex_in_class := in_class }

/-- The text of a regexp, its escapes kept, up to its end or an interpolation. -/
def regexp_content : Nat → Lexer → List Char × Lexer
  | 0, l => ([], l)
  | fuel + 1, l =>
    let c := l.peek_ch
    if l.at_end || (c = '/' && !l.in_class) || l.at_interpolation then ([], l)
    else if c = '\\' then
      let l := l.advance
      if l.at_end then
        let (rest, l) := regexp_content fuel l
        ('\\' :: rest, l)
      else
        let (rest, l') := regexp_content fuel l.advance
        ('\\' :: l.peek_ch :: rest, l')
    else
      let l' := l.advance
      let l' :=
        if c = '[' && !l.in_class then l'.set_in_class true
        else if c = ']' && l.in_class then l'.set_in_class false
        else l'
      let (rest, l'') := regexp_content fuel l'
      (c :: rest, l'')

def scan_interp_regex_content : Scan :=
  if !l.at_end && l.peek_ch = '/' && !l.in_class then
    let (flags, l') := l.advance.read_regexp_flags
    l.regexp_end flags l'
  else if l.at_end then l.regexp_end 0 l
  else if l.at_interpolation then l.begin_interpolation
  else
    let (buf, l') := regexp_content (l.len - l.pos) l
    -- the length of this token is not set
    ({ kind := .interp_lit, line := l.line, col := l.col_of l.pos, len := 0
       sval := some (intern buf), slen := buf.length }, l')

/-- Whether a regexp that begins here has an interpolation. -/
def regexp_interpolates : Nat → Bool → Lexer → Bool
  | 0, _, _ => false
  | fuel + 1, in_cls, l =>
    let c := l.peek_ch
    if l.at_end then false
    else if c = '\\' then regexp_interpolates fuel in_cls { l with pos := l.pos + 2 }
    else if c = '[' && !in_cls then regexp_interpolates fuel true { l with pos := l.pos + 1 }
    else if c = ']' && in_cls then regexp_interpolates fuel false { l with pos := l.pos + 1 }
    else if c = '/' && !in_cls then false
    else if l.at_interpolation then true
    else regexp_interpolates fuel in_cls { l with pos := l.pos + 1 }

/-- The text of a regexp without interpolation, up to its end. -/
def plain_regexp : Nat → Bool → Lexer → List Char × Lexer
  | 0, _, l => ([], l)
  | fuel + 1, in_cls, l =>
    let c := l.peek_ch
    if l.at_end || (c = '/' && !in_cls) then ([], l)
    else if c = '\\' then
      let l := l.advance
      if l.at_end then (['\\'], l)
      else
        let (rest, l') := plain_regexp fuel in_cls l.advance
        ('\\' :: l.peek_ch :: rest, l')
    else
      let in_cls' := if c = '[' && !in_cls then true else if c = ']' && in_cls then false else in_cls
      let (rest, l') := plain_regexp fuel in_cls' l.advance
      (c :: rest, l')

/-- A regexp whose opening slash has been read. -/
def scan_regexp (start line col : Nat) : Scan :=
  if regexp_interpolates (l.len - l.pos) false l then
    let l := (l.imode_push .interp_regex).set_in_class false
    ({ l.make_tok .interp_beg start line col with ival := 3 }, l)
  else
    let (buf, l) := plain_regexp (l.len - l.pos) false l
    if l.at_end || l.peek_ch ≠ '/' then
      ({ l.make_tok .error start line col with sval := some "unterminated regexp literal" }, l)
    else
      let (flags, l) := l.advance.read_regexp_flags
      ({ l.make_tok .regexp start line col with sval := some (intern buf), ival := flags }, l)

end Lexer
end stoned
