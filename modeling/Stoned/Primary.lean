import Stoned.Expression
import Stoned.Value

namespace stoned.parser

open program

/-! Operands (parser_expr.c, parse_primary and what it is made of). -/

/-- The values of number tokens. -/
structure Numerals where
  ival : Token → Int64
  fval : Token → Double

def is_blank (c : Char) : Bool := c = ' ' || ('\x09' ≤ c && c ≤ '\x0d')

/-- An element of a percent list and what follows it. A backslash takes the
next character as it is. -/
def percent_elem : List Char → List Char × List Char
  | [] => ([], [])
  | '\\' :: c :: rest =>
    let (elem, rest) := percent_elem rest
    (c :: elem, rest)
  | c :: rest =>
    if is_blank c then ([], c :: rest)
    else
      let (elem, rest) := percent_elem rest
      (c :: elem, rest)

def percent_elems : Nat → List Char → List String
  | 0, _ => []
  | fuel + 1, text =>
    match text.dropWhile is_blank with
    | [] => []
    | text =>
      let (elem, rest) := percent_elem text
      intern elem :: percent_elems fuel rest

def parse_percent_list (s : Span) (t : Token) (elem : Span → String → Node) : Node :=
  let text := (c_string t.text).toList
  .array s ((percent_elems text.length text).map (elem s))

def rope_is_static : RopeNode Node → Bool
  | .lit _ => true
  | .expr _ => false
  | .cat left right => rope_is_static left && rope_is_static right

def rope_flatten : RopeNode Node → String
  | .lit bytes => bytes
  | .expr _ => ""
  | .cat left right => rope_flatten left ++ rope_flatten right

/-- A rope with one more part. -/
def rope_append (rope : Option (RopeNode Node)) (part : RopeNode Node) : RopeNode Node :=
  rope.elim part fun rope => .cat rope part

def kernel_const_call_name (name : String) : Bool :=
  name = "Integer" || name = "Float" || name = "String" || name = "Array" || name = "Hash" || name = "Complex" ||
    name = "Rational"

def jump_value_terminator (k : TokenKind) : Bool :=
  k = .newline || k = .semicolon || k = .eof || k = .end_ || k = .if_ || k = .unless_ || k = .while_ || k = .until_ ||
    k = .rescue_

def jump_values_body (values : List Node) : Parse (List Node) := do
  if ← accept .comma then
    if ← check_any jump_value_terminator then return values
    else
      let value ← parse_expr 0
      jump_values (values ++ value.toList)
  else return values

/-- The values of a `return`: several are an array. -/
def parse_jump_value (s : Span) (first : Option Node) : Parse (Option Node) := do
  match first with
  | none => return none
  | some first =>
    if ← check .comma then return some (.array s (← jump_values [first]))
    else return some first

/-- The value behind a jump, if there is one. -/
def parse_jump (parse : Parse (Option Node)) : Parse (Option Node) := do
  if ← check_any jump_value_terminator then return none else parse

def rparen_stmts_body (stmts : List Node) : Parse (List Node) := do
  skip_terminators
  if ← check_any fun k => k = .rparen || k = .eof then return stmts
  else append_stmt stmts rparen_stmts

def parse_body_until_rparen : Parse Node := do
  let s := tok_span (← peek)
  let stmts ←
    with_mode (fun m => { m with masgn_paren_depth := m.masgn_paren_depth + 1 })
      (fun m => { m with masgn_paren_depth := m.masgn_paren_depth - 1 }) (rparen_stmts [])
  return .body s stmts

/-- A body of one statement is that statement. -/
def unwrap_body : Node → Node
  | .body _ [stmt] => stmt
  | n => n

def parse_paren : Parse (Option Node) := do
  skip_terminators
  let inner ← parse_body_until_rparen
  let inner ← attach_pending_do_block (some (unwrap_body inner)) 0
  expect .rparen "expected ')'"
  return inner

/-- A key and its label's mark; nothing when it is missing. -/
def parse_hash_key : Parse (Option Node × Bool) := do
  let t ← peek
  if (t.kind = .ident || t.kind = .const) && !(← mode).allow_command_arg_commas then
    let _ ← advance
    if ← accept .colon then return (some (.symbol (tok_span t) t.text), true)
    else
      error "expected ':' or '=>' in hash literal" t
      return (none, false)
  else return (← parse_expr 0, false)

/-- Goes on behind a comma. -/
def behind_comma {α : Type} (last : α) (next : Parse α) : Parse α := do
  skip_terminators
  if ← accept .comma then
    skip_terminators
    next
  else return last

def array_elements_body (elems : List Node) : Parse (List Node) := do
  if ← check_any fun k => k = .rbracket || k = .eof then return elems
  else
    let elem ← parse_expr 0
    let elems := elems ++ elem.toList
    behind_comma elems (array_elements elems)

def parse_array (s : Span) : Parse Node := do
  let elems ← with_allow_commas false do
    skip_terminators
    array_elements []
  expect .rbracket "expected ']'"
  return .array s elems

/-- The value of a pair whose key has been read, and the pairs behind it. -/
def parse_pair (ps : Span) (key : Option Node) (pairs : List Node) : Parse (List Node) := do
  match ← parse_expr 0 with
  | none => return pairs
  | some val =>
    let pairs := pairs ++ [.pair ps key val]
    behind_comma pairs (hash_pairs pairs)

def hash_pairs_body (pairs : List Node) : Parse (List Node) := do
  let t ← peek
  if t.kind = .rbrace || t.kind = .eof then return pairs
  else if t.kind = .star2 then
    let _ ← advance
    parse_pair (tok_span t) none pairs
  else
    match ← parse_hash_key with
    | (none, _) => return pairs
    | (some key, used_label) =>
      if used_label then parse_pair key.span (some key) pairs
      else
        expect .arrow "expected '=>' in hash literal"
        parse_pair key.span (some key) pairs

def parse_hash (s : Span) : Parse Node := do
  let pairs ← with_allow_commas false do
    skip_terminators
    hash_pairs []
  expect .rbrace "expected '\x7d'"
  return .hash s pairs false

def param_group_body (elems : List Node) : Parse (List Node) := do
  if ← check_any fun k => k = .rparen || k = .eof then return elems
  else
    let elem ← parse_param_node false
    let elems := elems ++ [elem]
    if ← accept .comma then param_group elems else return elems

/-- The name behind the stars of a parameter, if there is one. -/
def parse_splat_name : Parse (Option String) := do
  let t ← peek
  if t.kind = .ident || t.kind = .const then
    let _ ← advance
    return t.name
  else return none

/-- The tokens behind a keyword parameter that has no default. -/
def ends_keyword_param (k : TokenKind) : Bool :=
  k = .comma || k = .rparen || k = .pipe || k = .newline || k = .eof

/-- The default of a keyword parameter. -/
def parse_keyword_default (allow_default : Bool) : Parse (Option Node) := do
  if allow_default then
    if ← check_any ends_keyword_param then return none else parse_expr 0
  else return none

/-- A parameter with a name of its own: plain, with a default, or a keyword. -/
def parse_named_param (s : Span) (name : Option String) (allow_default : Bool) : Parse Node := do
  if ← check .colon then
    let _ ← advance
    let default_val ← parse_keyword_default allow_default
    return .param s name default_val false false true false
  else if allow_default then
    if ← accept .eq then return .param s name (← parse_expr 0) false false false false
    else return .param s name none false false false false
  else return .param s name none false false false false

def parse_param_node_body (allow_default : Bool) : Parse Node := do
  let t ← advance
  let s := tok_span t
  match t.kind with
  | .lparen =>
    let elems ← param_group []
    expect .rparen "expected ')'"
    return .array s elems
  | .star => return .param s (← parse_splat_name) none true false false false
  | .star2 => return .param s (← parse_splat_name) none false false false true
  | .amp =>
    let t ← advance
    return .param s t.name none false true false false
  | _ => parse_named_param s t.name allow_default

def param_list_body (params : List Node) : Parse (List Node) := do
  if ← check_any fun k => k = .pipe || k = .rparen || k = .eof then return params
  else
    let param ← parse_param_node true
    let params := params ++ [param]
    if ← accept .comma then param_list params else return params

/-- The parameters of a definition without parentheses, which stand on its line. -/
def params_unparen_body (def_line : Nat) (params : List Node) : Parse (List Node) := do
  let nxt ← peek
  if nxt.line ≠ def_line || nxt.kind = .pipe || nxt.kind = .rparen || nxt.kind = .newline || nxt.kind = .semicolon ||
      nxt.kind = .eof then return params
  else
    let param ← parse_param_node true
    let params := params ++ [param]
    let nxt ← peek
    if nxt.kind = .comma && nxt.line = def_line then
      let _ ← advance
      params_unparen def_line params
    else return params

def parse_lambda_params : Parse (List Node) := do
  if ← accept .lparen then
    let params ← parse_params
    expect .rparen "expected ')'"
    return params
  else if ← check_any fun k => k = .ident || k = .star || k = .amp || k = .star2 || k = .ivar then parse_params
  else return []

def parse_lambda_literal (s : Span) : Parse (Option Node) := do
  let params ← parse_lambda_params
  let t ← peek
  if t.kind ≠ .lbrace && t.kind ≠ .do_ then
    error "expected '\x7b' or 'do' after lambda parameters" t
    return none
  else
    let _ ← advance
    let brace := decide (t.kind = .lbrace)
    skip_terminators
    let body ← parse_body brace
    match ← parse_rescued_body s body with
    | none => return none
    | some body =>
      expect_block_end brace
      return some (.call s none "lambda" [] (some (.block s params (some body))) false)

def adjacent_strings_body (sval : String) : Parse String := do
  let t ← peek
  if t.kind = .string && t.ival ≠ 1 then
    let t ← advance
    adjacent_strings (sval ++ t.text)
  else return sval

def parse_string (s : Span) (t : Token) : Parse Node := do
  -- a command in backticks is a call of Kernel
  if t.ival = 1 then return .call s none "\x60" [.string s t.text] none false
  else return .string s (← adjacent_strings t.text)

/-- One token, or one interpolated expression, inside a string. An
interpolation of nothing leaves no part. -/
def interp_segments_body (is_regex : Bool) (rope : Option (RopeNode Node)) (regex_flags : Nat) :
    Parse (Option (RopeNode Node) × Nat) := do
  let seg ← peek
  if seg.kind = .interp_end || seg.kind = .eof then
    let _ ← advance
    let flagged := is_regex && seg.ival &&& 0x100 ≠ 0
    return (rope, if flagged then seg.ival - 0x100 else regex_flags)
  else if seg.kind = .interp_lit then
    let _ ← advance
    interp_segments is_regex (some (rope_append rope (.lit seg.text))) regex_flags
  else if seg.kind = .interp_expr_beg then
    let _ ← advance
    if ← check .interp_expr_end then
      let _ ← advance
      interp_segments is_regex rope regex_flags
    else
      let expr ← parse_expr 0
      expect .interp_expr_end "expected '\x7d' to close interpolation"
      interp_segments is_regex (some (rope_append rope (.expr (node_of expr)))) regex_flags
  else
    error "unexpected token inside string interpolation" seg
    let _ ← advance
    return (rope, regex_flags)

/-- A string and those that follow it directly, up to one without
interpolation. -/
def interp_strings_body (is_backtick is_regex : Bool) (rope : Option (RopeNode Node)) (regex_flags : Nat) :
    Parse (Option (RopeNode Node) × Nat) := do
  let (rope, regex_flags) ← interp_segments is_regex rope regex_flags
  if is_backtick then return (rope, regex_flags)
  else
    let t ← peek
    if t.kind = .interp_beg && t.ival ≠ 1 then
      let _ ← advance
      interp_strings is_backtick is_regex rope regex_flags
    else if t.kind = .string && t.ival ≠ 1 then
      let sq ← advance
      return (some (rope_append rope (.lit sq.text)), regex_flags)
    else return (rope, regex_flags)

/-- The node of a rope: a string when it has no expressions. -/
def rope_node (s : Span) (rope : Option (RopeNode Node)) : Node :=
  let rope := rope.getD (.lit "")
  if rope_is_static rope then .string s (rope_flatten rope) else .rope s rope

/-- A string, command, symbol or regexp with interpolation; which one the
opening token says. -/
def parse_interp (s : Span) (t : Token) : Parse Node := do
  let (rope, regex_flags) ← interp_strings (t.ival = 1) (t.ival = 3) none 0
  let n := rope_node s rope
  match t.ival with
  | 1 => return .call s none "\x60" [n] none false
  | 2 => return .call s (some n) "to_sym" [] none false
  | 3 => return .call s (some (.const s "Regexp")) "new" [n, .int s (Int64.ofNat regex_flags)] none false
  | _ => return n

/-- The segments of a constant's path that are no calls. -/
def const_path_body (name : String) : Parse String := do
  if ← check .colon2 then
    let part ← look 1
    if part.kind ≠ .const || const_is_called part (← look 2) (← look 3) then return name
    else
      let _ ← advance
      let _ ← advance
      const_path (name ++ "::" ++ part.text)
  else return name

/-- A call with arguments in parentheses, of which the first has been read. -/
def parse_paren_call (s : Span) (name : String) : Parse Node := do
  let args ← parse_paren_args
  let block ← parse_call_block fun _ => true
  return .call s none name args block false

/-- A call with arguments without parentheses. -/
def parse_command_call (s : Span) (name : String) : Parse Node := do
  let args ← parse_command_args
  let block ← parse_call_block fun m => m.command_arg_depth ≤ 1
  return .call s none name args block false

/-- What begins the argument of a command behind a name. -/
def begins_command_arg (name t : Token) : Bool :=
  ((t.kind = .lparen || t.kind = .lbracket) && apart name t) || t.kind = .regexp || t.kind = .colon2 ||
    begins_argument t.kind

def parse_const (s : Span) (t : Token) : Parse Node := do
  let name ← const_path t.text
  if name ≠ t.text then return .const s name
  else
    let nxt ← peek
    if nxt.kind = .lparen && token_adjacent t nxt then
      let _ ← advance
      parse_paren_call s t.text
    else if kernel_const_call_name t.text && argument_follows (begins_command_arg t) t nxt (← peek_next_token) then
      parse_command_call s t.text
    else return .const s t.text

/-- Names that end like this are methods'. -/
def is_method_only (name : String) : Bool :=
  match name.toList.getLast? with
  | some c => c = '?' || c = '!'
  | none => false

def parse_ident (s : Span) (t : Token) : Parse Node := do
  let nxt ← peek
  if nxt.kind = .lparen && token_adjacent t nxt then
    let _ ← advance
    parse_paren_call s t.text
  else if (nxt.kind = .lbrace || (nxt.kind = .do_ && (← mode).command_arg_depth = 0)) && nxt.line = t.line then
    let block ← parse_block
    return .call s none t.text [] block false
  else if argument_follows (fun t' => begins_command_arg t t' || t'.kind = .defined) t nxt (← peek_next_token) then
    parse_command_call s t.text
  else if is_method_only t.text then return .call s none t.text [] none false
  else return .lvar s t.text

/-- The tokens behind a `yield` without arguments. -/
def ends_yield (k : TokenKind) : Bool :=
  k = .newline || k = .semicolon || k = .eof || k = .end_ || k = .if_ || k = .unless_ || k = .while_ || k = .until_ ||
    k = .rescue_ || k = .rparen || k = .rbracket || k = .rbrace || k = .comma || k = .dot || k = .colon2

def parse_yield_args (t : Token) : Parse (List Node) := do
  let nxt ← peek
  if nxt.kind = .lparen && token_adjacent t nxt then
    let _ ← advance
    parse_paren_args
  else if ends_yield nxt.kind then return []
  else parse_command_args

def parse_yield (s : Span) (t : Token) : Parse Node := do
  let args ← parse_yield_args t
  return .call s none "yield" args none false

/-- What begins an argument of `super`: no rational, no imaginary number. -/
def begins_super_arg (name t : Token) : Bool :=
  ((t.kind = .lparen || t.kind = .lbracket) && apart name t) || t.kind = .regexp ||
    (begins_argument t.kind && t.kind ≠ .rational && t.kind ≠ .imaginary)

def parse_super (s : Span) (t : Token) : Parse Node := do
  let nxt ← peek
  if nxt.kind = .lparen && token_adjacent t nxt then
    let _ ← advance
    return .super s (← parse_paren_args) false
  else if argument_follows (begins_super_arg t) t nxt (← peek_next_token) then
    return .super s (← parse_command_args) false
  else return .super s [] true

def parse_defined (s : Span) : Parse Node := do
  if ← accept .lparen then
    let expr ← parse_expr 0
    expect .rparen "expected ')'"
    return .defined s expr
  else return .defined s (← parse_expr 30)

def parse_top_const (s : Span) : Parse (Option Node) := do
  let name ← advance
  if name.kind ≠ .const then
    error "expected constant name after '::'" name
    return none
  else return some (.const s name.text)

/-- The end of a range that has no beginning; it is on the same line. -/
def parse_range_ending (bp : BP) : Parse (Option Node) := do
  if ← check_any range_rhs_omitted then return none else parse_expr bp.rbp

def parse_beginless_range (s : Span) (t : Token) : Parse Node := do
  let ending ← parse_range_ending (infix_bp t.kind)
  return .range s none ending (t.kind = .dot3)

section
variable (num : Numerals)

/-- A number inside a call: a float if it is one that is not zero. -/
def number_node (s : Span) (t : Token) : Node :=
  if num.fval t != .of_int 0 then .float s (num.fval t) else .int s (num.ival t)

/-- An operand whose first token has been read; nothing behind an error. -/
def parse_operand (t : Token) : Parse (Option Node) := do
  let s := tok_span t
  match t.kind with
  | .int => return some (.int s (num.ival t))
  | .float => return some (.float s (num.fval t))
  | .rational => return some (.call s none "Rational" [number_node num s t, .int s 1] none false)
  | .imaginary => return some (.call s none "Complex" [.int s 0, number_node num s t] none false)
  | .string => return some (← parse_string s t)
  | .regexp => return some (.regexp s t.text t.ival.toUInt32)
  | .words => return some (parse_percent_list s t .string)
  | .symbols => return some (parse_percent_list s t .symbol)
  | .interp_beg => return some (← parse_interp s t)
  | .symbol => return some (.symbol s t.text)
  | .nil => return some (.nil s)
  | .true => return some (.true s)
  | .false => return some (.false s)
  | .self => return some (.self s)
  | .ivar => return some (.ivar s t.text)
  | .cvar => return some (.cvar s t.text)
  | .gvar => return some (.gvar s t.text)
  | .colon2 => parse_top_const s
  | .dot2 | .dot3 => return some (← parse_beginless_range s t)
  | .const => return some (← parse_const s t)
  | .ident => return some (← parse_ident s t)
  | .yield_ => return some (← parse_yield s t)
  | .lambda => parse_lambda_literal s
  | .defined => return some (← parse_defined s)
  | .lparen => parse_paren
  | .lbracket => return some (← parse_array s)
  | .lbrace => return some (← parse_hash s)
  | .return_ => return some (.return_ s (← parse_jump (parse_expr 0 >>= parse_jump_value s)))
  | .break_ => return some (.break_ s (← parse_jump (parse_expr 0)))
  | .next_ => return some (.next_ s (← parse_jump (parse_expr 0)))
  | .retry_ => return some (.retry_ s)
  | .super => return some (← parse_super s t)
  | _ => return none

/-- The operands that are statements. -/
def is_stmt_operand : TokenKind → Bool
  | .if_ | .unless_ | .while_ | .until_ | .begin_ | .case_ | .class_ => true
  | _ => false

/-- The tokens that begin an operand that is no statement. -/
def begins_operand : TokenKind → Bool
  | .int | .float | .rational | .imaginary | .string | .regexp | .words | .symbols | .interp_beg | .symbol | .nil
  | .true | .false | .self | .ivar | .cvar | .gvar | .colon2 | .dot2 | .dot3 | .const | .ident | .yield_ | .lambda
  | .defined | .lparen | .lbracket | .lbrace | .return_ | .break_ | .next_ | .retry_ | .super => true
  | _ => false

def parse_primary_body : Parse (Option Node) := do
  let t ← peek
  if prefix_bp t.kind ≠ 0 then
    let _ ← advance
    let operand ← parse_expr (prefix_bp t.kind)
    return some (.unop (tok_span t) (token_kind_name t.kind) (node_of operand))
  else if is_stmt_operand t.kind then parse_stmt
  else if begins_operand t.kind then
    let t ← advance
    parse_operand num t
  else
    error "unexpected token in expression" t
    let _ ← advance
    return none

end
end stoned.parser
