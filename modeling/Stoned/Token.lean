import Mathlib.Tactic

namespace stoned

/-! Tokens (lexer.h). -/

inductive TokenKind where
  | int | float | rational | imaginary | string | symbol | words | symbols | heredoc | regexp
  | interp_beg | interp_lit | interp_expr_beg | interp_expr_end | interp_end
  | ident | const | ivar | cvar | gvar
  | nil | true | false | self | if_ | unless_ | then_ | elsif_ | else_ | end_ | while_ | until_ | do_ | def_
  | class_ | module_ | alias_ | return_ | break_ | next_ | and_ | or_ | not_ | for_ | in_ | rescue_ | ensure_
  | begin_ | yield_ | super | retry_ | case_ | when_ | defined
  | plus | minus | star | star2 | slash | percent | amp | anddot | amp2 | pipe | pipe2 | caret | tilde
  | lshift | rshift | eq | eq2 | eq3 | neq | lt | leq | gt | geq | spaceship | match_ | nmatch | bang
  | dot | dot2 | dot3 | colon | colon2 | comma | semicolon | lparen | rparen | lbracket | rbracket
  | lbrace | rbrace | pipe_block | arrow | lambda | question
  | plus_eq | minus_eq | star_eq | slash_eq | percent_eq | amp_eq | pipe_eq | caret_eq | lshift_eq | rshift_eq
  | star2_eq | amp2_eq | pipe2_eq
  | newline | eof | error
  deriving DecidableEq, Repr

/-- A token. The value of a number is left as the text it is read from. -/
structure Token where
  kind : TokenKind
  line : Nat
  col : Nat
  len : Nat
  sval : Option String := none
  slen : Nat := 0
  ival : Nat := 0
  deriving DecidableEq, Repr

/-- The words that are no identifiers. -/
def KEYWORDS : List (String × TokenKind) :=
  [("nil", .nil), ("true", .true), ("false", .false), ("self", .self), ("if", .if_), ("unless", .unless_),
   ("then", .then_), ("elsif", .elsif_), ("else", .else_), ("end", .end_), ("while", .while_), ("until", .until_),
   ("do", .do_), ("def", .def_), ("class", .class_), ("module", .module_), ("alias", .alias_),
   ("return", .return_), ("break", .break_), ("next", .next_), ("and", .and_), ("or", .or_), ("not", .not_),
   ("for", .for_), ("in", .in_), ("rescue", .rescue_), ("ensure", .ensure_), ("begin", .begin_),
   ("yield", .yield_), ("super", .super), ("retry", .retry_), ("case", .case_), ("when", .when_),
   ("defined?", .defined)]

def token_kind_name : TokenKind → String
  | .int => "INT" | .float => "FLOAT" | .rational => "RATIONAL" | .imaginary => "IMAGINARY"
  | .string => "STRING" | .symbol => "SYMBOL" | .heredoc => "HEREDOC" | .regexp => "REGEXP"
  | .interp_beg => "INTERP_BEG" | .interp_lit => "INTERP_LIT" | .interp_expr_beg => "INTERP_EXPR_BEG"
  | .interp_expr_end => "INTERP_EXPR_END" | .interp_end => "INTERP_END"
  | .ident => "IDENT" | .const => "CONST" | .ivar => "IVAR" | .cvar => "CVAR" | .gvar => "GVAR"
  | .nil => "nil" | .true => "true" | .false => "false" | .self => "self" | .if_ => "if" | .unless_ => "unless"
  | .then_ => "then" | .elsif_ => "elsif" | .else_ => "else" | .end_ => "end" | .while_ => "while"
  | .until_ => "until" | .do_ => "do" | .def_ => "def" | .class_ => "class" | .module_ => "module"
  | .alias_ => "alias" | .return_ => "return" | .break_ => "break" | .next_ => "next" | .and_ => "and"
  | .or_ => "or" | .not_ => "not" | .in_ => "in" | .rescue_ => "rescue" | .ensure_ => "ensure"
  | .begin_ => "begin" | .yield_ => "yield" | .super => "super" | .case_ => "case" | .when_ => "when"
  | .defined => "defined?" | .words => "%w" | .symbols => "%i"
  | .plus => "+" | .minus => "-" | .star => "*" | .star2 => "**" | .slash => "/" | .percent => "%"
  | .amp => "&" | .anddot => "&." | .amp2 => "&&" | .pipe => "|" | .pipe2 => "||" | .caret => "^" | .tilde => "~"
  | .lshift => "<<" | .rshift => ">>" | .eq => "=" | .eq2 => "==" | .eq3 => "===" | .neq => "!=" | .lt => "<"
  | .leq => "<=" | .gt => ">" | .geq => ">=" | .spaceship => "<=>" | .match_ => "=~" | .nmatch => "!~"
  | .bang => "!" | .dot => "." | .dot2 => ".." | .dot3 => "..." | .colon => ":" | .colon2 => "::"
  | .comma => "," | .semicolon => ";" | .lparen => "(" | .rparen => ")" | .lbracket => "[" | .rbracket => "]"
  | .lbrace => "\x7b" | .rbrace => "\x7d" | .pipe_block => "|block|" | .arrow => "=>" | .lambda => "->"
  | .question => "?" | .plus_eq => "+=" | .minus_eq => "-=" | .star_eq => "*=" | .slash_eq => "/="
  | .percent_eq => "%=" | .amp_eq => "&=" | .pipe_eq => "|=" | .caret_eq => "^=" | .lshift_eq => "<<="
  | .rshift_eq => ">>=" | .star2_eq => "**=" | .amp2_eq => "&&=" | .pipe2_eq => "||="
  | .newline => "NEWLINE" | .eof => "EOF" | .error => "ERROR"
  | .for_ | .retry_ => "???"

end stoned
