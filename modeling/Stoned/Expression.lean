import Stoned.Parser

namespace stoned.parser

open program

/-! The operators and what stands around them (parser_expr.c, the binding
powers up to parse_expr). -/

/-- How tightly an operator binds to its left and to its right. -/
structure BP where
  lbp : Nat
  rbp : Nat
  deriving DecidableEq

/-- A power of zero is that of a token that is no operator. -/
def infix_bp : TokenKind → BP
  | .or_ => ⟨2, 3⟩
  | .and_ => ⟨4, 5⟩
  | .eq | .plus_eq | .minus_eq | .star_eq | .slash_eq | .percent_eq | .star2_eq | .amp_eq | .pipe_eq | .caret_eq
  | .lshift_eq | .rshift_eq | .amp2_eq | .pipe2_eq => ⟨6, 6⟩
  | .question => ⟨8, 7⟩
  | .pipe2 => ⟨10, 11⟩
  | .amp2 => ⟨12, 13⟩
  | .dot2 | .dot3 => ⟨8, 9⟩
  | .eq2 | .neq | .eq3 | .match_ | .nmatch => ⟨14, 15⟩
  | .lt | .leq | .gt | .geq | .spaceship => ⟨16, 17⟩
  | .pipe => ⟨18, 19⟩
  | .caret => ⟨20, 21⟩
  | .amp => ⟨22, 23⟩
  | .lshift | .rshift => ⟨24, 25⟩
  | .plus | .minus => ⟨26, 27⟩
  | .star | .slash | .percent => ⟨28, 29⟩
  | .star2 => ⟨32, 31⟩
  | .dot | .colon2 | .anddot => ⟨40, 41⟩
  | .lbracket => ⟨42, 43⟩
  | _ => ⟨0, 0⟩

def prefix_bp : TokenKind → Nat
  | .not_ => 6
  | .bang | .minus | .tilde | .plus => 30
  | .star => 2
  | _ => 0

/-- The compound assignments. -/
def is_op_assign : TokenKind → Bool
  | .plus_eq | .minus_eq | .star_eq | .slash_eq | .percent_eq | .amp_eq | .pipe_eq | .caret_eq | .lshift_eq
  | .rshift_eq | .star2_eq | .amp2_eq | .pipe2_eq => true
  | _ => false

def token_can_start_expr : TokenKind → Bool
  | .ident | .const | .ivar | .gvar | .nil | .true | .false | .self | .int | .float | .rational | .imaginary
  | .string | .regexp | .words | .symbols | .interp_beg | .lparen | .lbracket | .lbrace | .defined | .plus
  | .minus | .bang | .tilde => true
  | _ => false

/-- A token that begins behind a blank. -/
def apart (prev t : Token) : Bool := prev.col + prev.len < t.col

/-- A sign that belongs to an argument: it stands apart from the name and
touches what follows. -/
def unary_prefix_arg (prev sign after_sign : Token) : Bool :=
  (sign.kind = .plus || sign.kind = .minus) && sign.line = prev.line && apart prev sign &&
    token_adjacent sign after_sign && token_can_start_expr after_sign.kind

/-- The tokens that begin an argument without parentheses behind any name. -/
def begins_argument : TokenKind → Bool
  | .symbol | .string | .words | .symbols | .interp_beg | .int | .float | .rational | .imaginary | .nil | .true
  | .false | .self | .ivar | .gvar | .const | .ident | .bang | .tilde => true
  | _ => false

/-- Whether an argument without parentheses follows a name on its line. What
else than the usual tokens begins one depends on the place. -/
def argument_follows (begins : Token → Bool) (name nxt after : Token) : Bool :=
  (begins nxt || unary_prefix_arg name nxt after) && nxt.line = name.line

def range_rhs_omitted (k : TokenKind) : Bool :=
  k = .rparen || k = .rbracket || k = .rbrace || k = .comma || k = .newline || k = .semicolon || k = .eof ||
    k = .end_ || k = .then_ || k = .do_ || k = .if_ || k = .unless_ || k = .while_ || k = .until_

mutual

/-- The local variables an assignment to a target defines. -/
def assign_targets : Node → List String
  | .lvar _ name => [name]
  | .array _ elements => assign_targets_list elements
  | _ => []

def assign_targets_list : List Node → List String
  | [] => []
  | n :: rest => assign_targets n ++ assign_targets_list rest

end

mutual

/-- The local variables a parameter defines. -/
def param_locals : Node → List String
  | .param _ name .. => name.toList
  | .array _ elements => params_locals elements
  | _ => []

def params_locals : List Node → List String
  | [] => []
  | n :: rest => param_locals n ++ params_locals rest

end

def mark_locals (names : List String) : Parse Unit := names.forM mark_local

def mark_assign_targets (target : Node) : Parse Unit := mark_locals (assign_targets target)

/-- Parses with the mode changed and puts the changed fields back. -/
def with_mode {α : Type} (change restore : ParserMode → ParserMode) (parse : Parse α) : Parse α := do
  modify_mode change
  let value ← parse
  modify_mode restore
  return value

/-- Parses with command arguments taking commas or not. -/
def with_allow_commas {α : Type} (allow : Bool) (parse : Parse α) : Parse α := do
  let saved := (← mode).allow_command_arg_commas
  with_mode ({ · with allow_command_arg_commas := allow }) ({ · with allow_command_arg_commas := saved }) parse

def in_command_arg {α : Type} (parse : Parse α) : Parse α :=
  with_mode (fun m => { m with command_arg_depth := m.command_arg_depth + 1 })
    (fun m => { m with command_arg_depth := m.command_arg_depth - 1 }) parse

def exception_classes_body (classes : List Node) : Parse (List Node) := do
  let exc ← parse_expr 0
  let classes := classes ++ [node_of exc]
  if ← accept .comma then exception_classes classes else return classes

/-- The classes behind `rescue`, if there are any. -/
def parse_exception_classes : Parse (List Node) := do
  if ← check_any fun k =>
      k = .arrow || k = .newline || k = .semicolon || k = .end_ || k = .ensure_ || k = .else_ then return []
  else exception_classes []

/-- The rescue clauses; nothing when a variable's name is missing. -/
def rescue_clauses_body (s : Span) (rescues : List Node) : Parse (Option (List Node)) := do
  if ← accept .rescue_ then
    let classes ← parse_exception_classes
    if ← accept .arrow then
      let var_tok ← advance
      if var_tok.kind ≠ .ident then
        error "expected exception variable name after '=>'" var_tok
        return none
      else
        mark_local var_tok.text
        skip_terminators
        let body ← parse_body false
        rescue_clauses s (rescues ++ [.rescue_ s classes var_tok.name (some body)])
    else
      skip_terminators
      let body ← parse_body false
      rescue_clauses s (rescues ++ [.rescue_ s classes none (some body)])
  else return some rescues

/-- A body behind a keyword, if the keyword is there. -/
def parse_optional_body (keyword : TokenKind) : Parse (Option Node) := do
  if ← accept keyword then
    skip_terminators
    return some (← parse_body false)
  else return none

/-- The clauses behind a body. -/
def wrap_rescue_ensure (s : Span) (body : Node) : Parse (Option Node) := do
  match ← rescue_clauses s [] with
  | none => return none
  | some rescues =>
    let else_body ← parse_optional_body .else_
    let ensure_body ← parse_optional_body .ensure_
    return some (.begin_ s (some body) rescues else_body ensure_body)

/-- A body with the clauses that follow it, if there are any. -/
def parse_rescued_body (s : Span) (body : Node) : Parse (Option Node) := do
  if ← check_any fun k => k = .rescue_ || k = .ensure_ then wrap_rescue_ensure s body
  else return some body

def expect_block_end (brace : Bool) : Parse Unit :=
  if brace then expect .rbrace "expected '\x7d'" else expect .end_ "expected 'end'"

def parse_params : Parse (List Node) := param_list []

/-- The parameters between the bars of a block. -/
def parse_block_params : Parse (List Node) := do
  if ← check .pipe then
    let _ ← advance
    let saved := (← mode).stop_at_param_pipe
    let params ←
      with_mode ({ · with stop_at_param_pipe := true }) ({ · with stop_at_param_pipe := saved }) do
        let params ← parse_params
        mark_locals (params_locals params)
        return params
    expect .pipe "expected '|' to close block params"
    return params
  else return []

def parse_block : Parse (Option Node) := do
  let t ← advance
  let brace := decide (t.kind = .lbrace)
  let s := tok_span t
  skip_terminators
  let params ← parse_block_params
  skip_terminators
  let body ← with_allow_commas true (parse_body brace)
  match ← parse_rescued_body s body with
  | none => return none
  | some body =>
    expect_block_end brace
    return some (.block s params (some body))

/-- The block of a call: braces, or `do` where it is allowed. -/
def parse_call_block (allow_do : ParserMode → Bool) : Parse (Option Node) := do
  let m ← mode
  if ← check_any fun k => k = .lbrace || (k = .do_ && allow_do m) then parse_block
  else return none

/-- Gives a `do` block to a call that has none. -/
def attach_pending_do_block (arg : Option Node) (min_bp : Nat) : Parse (Option Node) := do
  match arg with
  | none => return none
  | some arg =>
    if ← check .do_ then
      match arg with
      | .call span recv method args none safe_nav =>
        let block ← parse_block
        return some (← parse_expr_continue (.call span recv method args block safe_nav) min_bp)
      | arg => return some arg
    else return some arg

/-- The symbol node a label stands for. -/
def command_hash_label : Node → Option Node
  | .lvar span name | .const span name => some (.symbol span name)
  | _ => none

/-- `key: value` as an argument. -/
def parse_command_hash (key : Node) : Parse Node := do
  expect .colon "expected ':' in hash literal"
  let val ← parse_expr 0
  return .hash key.span (val.elim [] fun val => [.pair key.span (some key) val]) true

def arrow_pairs_body (key : Node) (pairs : List Node) : Parse (List Node) := do
  expect .arrow "expected '=>' in hash literal"
  let val ← parse_expr 0
  let pairs := val.elim pairs fun val => pairs ++ [.pair key.span (some key) val]
  if ← accept .comma then
    match ← parse_expr 0 with
    | some key => if ← check .arrow then arrow_pairs key pairs else return pairs
    | none => return pairs
  else return pairs

/-- `key => value, ...` as an argument. -/
def parse_arrow_hash (first_key : Node) : Parse Node := do
  let pairs ← arrow_pairs first_key []
  return .hash first_key.span pairs false

def parse_arg_expr : Parse (Option Node) := do
  let t ← peek
  if t.kind = .star2 then
    let _ ← advance
    let operand ← parse_expr 0
    return some (.unop (tok_span t) "**" (node_of operand))
  else
    match ← in_command_arg (parse_expr 0) with
    | none => return none
    | some arg =>
      let nxt ← peek
      match nxt.kind, command_hash_label arg with
      | .colon, some key => return some (← parse_command_hash key)
      | .arrow, _ => return some (← parse_arrow_hash arg)
      | _, _ => return some arg

/-- `*list` as an argument. -/
def parse_splat_arg (s : Span) : Parse Node := do
  let _ ← advance
  let operand ← parse_expr 0
  let operand ← attach_pending_do_block operand 0
  return .unop s "*" (node_of operand)

/-- `&block` as an argument. -/
def parse_block_pass (s : Span) : Parse Node := do
  let _ ← advance
  let expr ← parse_expr 0
  return .block_pass s expr

/-- An argument without parentheses, which may be missing behind an error. -/
def parse_command_arg (t : Token) : Parse (List Node) := do
  if t.kind = .star then return [← parse_splat_arg (tok_span t)] else return (← parse_arg_expr).toList

def command_args_body (saved_allow_commas : Bool) (args : List Node) : Parse (List Node) := do
  let t ← peek
  if t.kind = .amp then return args ++ [← parse_block_pass (tok_span t)]
  else
    let args := args ++ (← parse_command_arg t)
    if saved_allow_commas then
      if ← accept .comma then
        skip_terminators
        modify_mode ({ · with allow_command_arg_commas := false })
        command_args saved_allow_commas args
      else return args
    else return args

/-- Arguments without parentheses; they take commas only outside each other. -/
def parse_command_args : Parse (List Node) := do
  let saved := (← mode).allow_command_arg_commas
  with_allow_commas false (command_args saved [])

/-- An argument in parentheses. -/
def parse_paren_arg (t : Token) : Parse (List Node) := do
  if t.kind = .star then return [← parse_splat_arg (tok_span t)]
  else return (← attach_pending_do_block (← parse_arg_expr) 0).toList

def paren_args_body (args : List Node) : Parse (List Node) := do
  let t ← peek
  if t.kind = .rparen || t.kind = .eof then return args
  else if t.kind = .amp then
    let arg ← parse_block_pass (tok_span t)
    skip_terminators
    return args ++ [arg]
  else
    let args := args ++ (← parse_paren_arg t)
    if ← accept .comma then
      skip_terminators
      paren_args args
    else
      skip_terminators
      return args

/-- Arguments in parentheses, of which the first has been read. -/
def parse_args : Parse (List Node) := with_allow_commas false do
  skip_terminators
  paren_args []

/-- Arguments up to the closing parenthesis. -/
def parse_paren_args : Parse (List Node) := do
  let args ← parse_args
  expect .rparen "expected ')'"
  return args

def subscripts_body (args : List Node) : Parse (List Node) := do
  if ← accept .comma then
    let arg ← parse_expr 0
    subscripts (args ++ arg.toList)
  else return args

def parse_subscripts : Parse (List Node) := do
  if ← check .rbracket then return []
  else
    let first ← parse_expr 0
    subscripts first.toList

/-- `left[...]` behind the bracket. -/
def parse_index (left : Node) : Parse Node := do
  let args ← parse_subscripts
  expect .rbracket "expected ']'"
  return .call left.span (some left) "[]" args none false

/-- The node of `left = right`. An element or an attribute becomes a call of
its setter, anything else a target. -/
def assign_node (left right : Node) : Node :=
  match left with
  | .call span (some recv) method args block safe_nav =>
    if method = "[]" then .call span (some recv) "[]=" (args ++ [right]) block safe_nav
    else if args.isEmpty then .call span (some recv) (method ++ "=") [right] block safe_nav
    else .assign span left right
  | left => .assign left.span left right

/-- The variables that `left = right` defines: those of a target. -/
def assigned_locals (left right : Node) : List String :=
  match assign_node left right with
  | .assign .. => assign_targets left
  | _ => []

def parse_assign (left : Node) (bp : BP) : Parse Node := do
  skip_terminators
  let right := node_of (← parse_expr bp.rbp)
  mark_locals (assigned_locals left right)
  return assign_node left right

def parse_op_assign (left : Node) (op : Token) (bp : BP) : Parse Node := do
  skip_terminators
  let right ← parse_expr bp.rbp
  return .op_assign left.span (token_kind_name op.kind) left (node_of right)

def parse_range_rhs (bp : BP) : Parse (Option Node) := do
  if ← check_any range_rhs_omitted then return none
  else
    skip_terminators
    parse_expr bp.rbp

def parse_range (left : Node) (op : Token) (bp : BP) : Parse Node := do
  let right ← parse_range_rhs bp
  return .range left.span (some left) right (op.kind = .dot3)

def parse_binop (left : Node) (op : Token) (bp : BP) : Parse Node := do
  skip_terminators
  let right ← parse_expr bp.rbp
  return .binop left.span (token_kind_name op.kind) left (node_of right)

/-- The branches of `left ? then : else` behind the question mark. -/
def parse_ternary (left : Node) : Parse Node := do
  skip_terminators
  let then_expr ← parse_expr 0
  skip_terminators
  expect .colon "expected ':' in ternary"
  skip_terminators
  let else_expr ← parse_expr (infix_bp .question).rbp
  return .if_ left.span left then_expr else_expr

/-- The keywords and operators that are method names behind a dot. -/
def is_method_name : TokenKind → Bool
  | .nil | .true | .false | .self | .if_ | .unless_ | .then_ | .elsif_ | .else_ | .end_ | .while_ | .until_ | .do_
  | .def_ | .class_ | .module_ | .return_ | .break_ | .next_ | .retry_ | .and_ | .or_ | .not_ | .in_ | .rescue_
  | .ensure_ | .begin_ | .yield_ | .super | .case_ | .when_ | .alias_ | .for_ => true
  | _ => false

def is_operator_name : TokenKind → Bool
  | .percent | .plus | .minus | .star | .star2 | .slash | .lt | .gt | .leq | .geq | .eq2 | .eq3 | .neq | .spaceship
  | .match_ | .nmatch | .lshift | .rshift | .amp | .pipe | .caret | .tilde => true
  | _ => false

/-- The method name behind a dot whose first token has been read; nothing
behind an error. -/
def parse_method_name (op name_tok : Token) : Parse (Option String) := do
  if (op.kind = .dot || op.kind = .anddot) && name_tok.kind = .lparen && token_adjacent op name_tok then
    return some "call"
  else if name_tok.kind = .lbracket then
    let t ← peek
    if t.kind ≠ .rbracket then
      error "expected ']' to close '[]' method name" t
      return none
    else
      let rb ← advance
      let nxt ← peek
      if nxt.kind = .eq && token_adjacent rb nxt then
        let _ ← advance
        return some "[]="
      else return some "[]"
  else if name_tok.kind = .ident || name_tok.kind = .const || is_method_name name_tok.kind then
    return some name_tok.text
  else if is_operator_name name_tok.kind then return some (token_kind_name name_tok.kind)
  else
    error "expected method name after '.'" name_tok
    return none

/-- A name with the `?` or `!` that touches its token. -/
def parse_name_suffix (name_tok : Token) (name : String) : Parse String := do
  let suffix ← peek
  if (suffix.kind = .question || suffix.kind = .bang) && token_adjacent name_tok suffix then
    let _ ← advance
    return name ++ if suffix.kind = .question then "?" else "!"
  else return name

/-- The arguments of a method call behind a dot, and whether they were in
parentheses. -/
def parse_dot_args (name_tok : Token) (name : String) : Parse (List Node × Bool) := do
  let nxt ← peek
  if name_tok.kind = .lparen && name = "call" then return (← parse_paren_args, true)
  else if nxt.kind = .lparen && token_adjacent name_tok nxt then
    let _ ← advance
    return (← parse_paren_args, true)
  else
    let after ← peek_next_token
    let begins (t : Token) :=
      ((t.kind = .lparen || t.kind = .lbracket) && apart name_tok t) || t.kind = .colon2 || begins_argument t.kind
    if argument_follows begins name_tok nxt after then return (← parse_command_args, false)
    else return ([], false)

/-- A method call behind a dot; nothing when the name is missing. -/
def parse_method_call (left : Node) (op name_tok : Token) : Parse (Option Node) := do
  match ← parse_method_name op name_tok with
  | none => return none
  | some name =>
    let name ← parse_name_suffix name_tok name
    let (args, from_paren) ← parse_dot_args name_tok name
    let block ← parse_call_block fun m => m.command_arg_depth = 0 || from_paren
    return some (.call left.span (some left) name args block (op.kind = .anddot))

/-- Whether the constant behind `::` is called. -/
def const_is_called (name_tok nxt after : Token) : Bool :=
  argument_follows (fun t => (t.kind = .lparen && token_adjacent name_tok t) || begins_argument t.kind) name_tok nxt
    after

/-- What follows `.`, `&.` or `::`. -/
def parse_dot (left : Node) (op : Token) : Parse (Option Node) := do
  let name_tok ← advance
  if op.kind = .colon2 && name_tok.kind = .const then
    let nxt ← peek
    let after ← peek_next_token
    if const_is_called name_tok nxt after then parse_method_call left op name_tok
    else
      match left with
      | .const span name => return some (.const span (name ++ "::" ++ name_tok.text))
      | left => return some (.const_access left.span left name_tok.text)
  else parse_method_call left op name_tok

/-- The expression that an infix operator makes of its left operand; nothing
when parsing does not go on behind it. -/
def parse_infix (left : Node) (op : Token) : Parse (Option Node) := do
  let bp := infix_bp op.kind
  match op.kind with
  | .question => return some (← parse_ternary left)
  | .lbracket => return some (← parse_index left)
  | .eq => return some (← parse_assign left bp)
  | .dot | .colon2 | .anddot => parse_dot left op
  | .dot2 | .dot3 => return some (← parse_range left op bp)
  | kind => if is_op_assign kind then return some (← parse_op_assign left op bp) else return some (← parse_binop left op bp)

/-- The operator that comes next. A line end in front of a dot is passed over. -/
def next_operator : Parse Token := do
  let op ← peek
  if op.kind = .newline then
    let nxt ← look 1
    if nxt.kind = .dot || nxt.kind = .anddot then
      let _ ← advance
      peek
    else return op
  else return op

/-- Whether an operator is taken by an expression with a least binding power. -/
def takes (kind : TokenKind) (min_bp : Nat) : Bool := (infix_bp kind).lbp ≠ 0 && min_bp ≤ (infix_bp kind).lbp

def parse_expr_continue_body (left : Node) (min_bp : Nat) : Parse Node := do
  let t ← peek
  if (← mode).stop_at_param_pipe && t.kind = .pipe then return left
  else
    let op ← next_operator
    if takes op.kind min_bp then
      let _ ← advance
      match ← parse_infix left op with
      | some left => parse_expr_continue left min_bp
      | none => return left
    else return left

def parse_expr_body (min_bp : Nat) : Parse (Option Node) := do
  match ← parse_primary with
  | some left => return some (← parse_expr_continue left min_bp)
  | none => return none

end stoned.parser
