import Stoned.Primary

namespace stoned.parser

open program

/-! Patterns and statements (parser_stmt.c). -/

/-- The name behind a star, which becomes a local variable. -/
def parse_rest_name : Parse (Option String) := do
  if ← check .ident then
    let rt ← advance
    mark_locals rt.name.toList
    return rt.name
  else return none

def array_pattern_body (first : Bool) (c : PatternCollection) : Parse PatternCollection := do
  if ← check_any fun k => k = .rbracket || k = .eof then return c
  else
    skip_terminators
    let t ← peek
    if t.kind = .rbracket then return c
    else if t.kind = .star then
      let _ ← advance
      let rname ← parse_rest_name
      -- a leading star may begin a find pattern
      let c :=
        if first then { c with has_pre_rest := true, pre_rest_name := rname }
        else { c with has_rest := true, rest_name := rname }
      if ← accept .comma then array_pattern false c else return c
    else
      let elem ← parse_pattern
      let c := { c with elements := c.elements ++ elem.toList }
      if ← accept .comma then array_pattern false c else return c

def parse_array_pattern (s : Span) : Parse Node := do
  let c ← array_pattern true {}
  skip_terminators
  let _ ← accept .rbracket
  return .pattern_array s c.elements c.has_rest c.has_pre_rest c.rest_name c.pre_rest_name

/-- The pattern behind a key; without one the key names a variable. -/
def parse_key_pattern (key_tok : Token) (key_name : String) : Parse Node := do
  if ← check_any fun k => k = .comma || k = .rbrace || k = .newline then
    mark_local key_name
    return .pattern_capture (tok_span key_tok) none (some key_name)
  else return node_of (← parse_pattern)

/-- The name behind the two stars of a hash pattern; `**nil` has none. -/
def parse_hash_rest (rest_name : Option String) : Parse (Option String) := do
  if ← accept .nil then return none
  else if ← check .ident then parse_rest_name
  else return rest_name

def hash_pattern_body (c : PatternCollection) : Parse PatternCollection := do
  if ← check_any fun k => k = .rbrace || k = .eof then return c
  else
    skip_terminators
    let t ← peek
    if t.kind = .rbrace then return c
    else if t.kind = .star2 then
      let _ ← advance
      let rest_name ← parse_hash_rest c.rest_name
      let c := { c with has_rest := true, rest_name }
      if ← accept .comma then hash_pattern c else return c
    else
      let key_tok ← advance
      let key_name :=
        if key_tok.kind = .ident || key_tok.kind = .const || key_tok.kind = .symbol then key_tok.text else "?"
      let _ ← accept .colon
      let val_pat ← parse_key_pattern key_tok key_name
      let c := { c with elements := c.elements ++ [.symbol (tok_span key_tok) key_name, val_pat] }
      if ← accept .comma then hash_pattern c else return c

def parse_hash_pattern (s : Span) : Parse Node := do
  let c ← hash_pattern {}
  skip_terminators
  let _ ← accept .rbrace
  return .pattern_hash s c.elements c.has_rest c.rest_name

section
variable (num : Numerals)

/-- A number behind a minus sign; nothing when there is none. -/
def parse_negative_literal (s : Span) : Parse (Option Node) := do
  let nt ← peek
  match nt.kind with
  | .int =>
    let _ ← advance
    return some (.int s (-num.ival nt))
  | .float =>
    let _ ← advance
    return some (.float s (-num.fval nt))
  | _ => return none

/-- The tokens that are patterns by themselves or begin one. -/
def begins_pattern : TokenKind → Bool
  | .caret | .lbracket | .lbrace | .nil | .true | .false | .int | .minus | .float | .symbol | .ident => true
  | _ => false

/-- A pattern whose first token has been read. -/
def parse_simple_pattern (t : Token) : Parse (Option Node) := do
  let s := tok_span t
  match t.kind with
  | .caret => return some (.pattern_pin s (← advance).text)
  | .lbracket => return some (← parse_array_pattern s)
  | .lbrace => return some (← parse_hash_pattern s)
  | .nil => return some (.nil s)
  | .true => return some (.true s)
  | .false => return some (.false s)
  | .int => return some (.int s (num.ival t))
  | .minus => parse_negative_literal num s
  | .float => return some (.float s (num.fval t))
  | .symbol => return some (.symbol s t.text)
  | .ident =>
    if t.text = "_" then return some (.pattern_capture s none none)
    else
      mark_local t.text
      return some (.pattern_capture s none (some t.text))
  | _ => return none

/-- `pattern => name`. -/
def parse_capture (s : Span) (pat : Node) : Parse Node := do
  if ← accept .arrow then
    let vt ← advance
    mark_locals vt.name.toList
    return .pattern_capture s (some pat) vt.name
  else return pat

/-- A pattern, or an expression that is one. -/
def parse_pattern_operand (t : Token) : Parse (Option Node) := do
  if begins_pattern t.kind then
    let _ ← advance
    parse_simple_pattern num t
  else parse_expr 0

def parse_pattern_body : Parse (Option Node) := do
  skip_terminators
  let t ← peek
  let s := tok_span t
  match ← parse_pattern_operand num t with
  | none => return none
  | some pat =>
    let pat ← parse_capture s pat
    if ← accept .pipe then
      let right ← parse_pattern
      return some (.pattern_or s pat (node_of right))
    else return some pat

end

def const_path_name_body (name : String) : Parse (Option String) := do
  if ← accept .colon2 then
    let part ← advance
    if part.kind ≠ .const then
      error "expected constant name after '::'" part
      return none
    else const_path_name (name ++ "::" ++ part.text)
  else return some name

def parse_const_path_name : Parse (Option String) := do
  let _ ← accept .colon2
  let name_tok ← advance
  if name_tok.kind ≠ .const then
    error "expected constant name" name_tok
    return none
  else const_path_name name_tok.text

/-- The operators and keywords that are names of methods in definitions. -/
def is_def_name : TokenKind → Bool
  | .plus | .minus | .star | .star2 | .slash | .percent | .eq2 | .eq3 | .neq | .lt | .leq | .gt | .geq | .spaceship
  | .lshift | .rshift | .amp | .pipe | .caret | .tilde | .match_ | .nmatch | .bang
  | .alias_ | .begin_ | .class_ | .def_ | .do_ | .else_ | .end_ | .if_ | .in_ | .module_ | .next_ | .nil | .not_
  | .or_ | .rescue_ | .return_ | .self | .super | .then_ | .true | .false | .unless_ | .until_ | .when_ | .while_
  | .yield_ => true
  | _ => false

def method_name_from_token (tok : Token) : Parse (Option String) := do
  match tok.kind with
  | .ident | .const | .symbol => return tok.name
  | .lbracket =>
    if ← accept .rbracket then
      if ← accept .eq then return some "[]=" else return some "[]"
    else
      error "expected ']' after '[' in method name" tok
      return none
  | .for_ => return some "for"
  | kind => if is_def_name kind then return some (token_kind_name kind) else return none

def parse_list_elem (elem_min_bp : Nat) (assignment_target : Bool) : Parse (Option Node) :=
  if assignment_target then parse_assignment_target_elem else parse_expr elem_min_bp

def expr_list_body (elem_min_bp : Nat) (assignment_target : Bool) (elems : List Node) : Parse (List Node) := do
  if ← accept .comma then
    let k := (← peek).kind
    if assignment_target &&
        (k = .eq || k = .newline || k = .semicolon || k = .rparen || k = .eof || k = .in_) then return elems
    else
      let elem ← parse_list_elem elem_min_bp assignment_target
      expr_list elem_min_bp assignment_target (elems ++ elem.toList)
  else return elems

/-- An expression, or the list it is the first element of. -/
def parse_expr_list (first : Option Node) (elem_min_bp : Nat) (assignment_target : Bool) : Parse (Option Node) := do
  match first with
  | none => return none
  | some first =>
    if ← check .comma then
      return some (.array first.span (← expr_list elem_min_bp assignment_target [first]))
    else return some first

/-- The targets of an assignment, of which the first has been read. -/
def parse_target_list (first : Option Node) : Parse (Option Node) := do
  if ← check .comma then parse_expr_list first 7 true else return first

def parse_assignment_target_elem_body : Parse (Option Node) := do
  let t ← peek
  match t.kind with
  | .lparen =>
    let _ ← advance
    let group ← parse_assignment_target_elem
    let group ← parse_target_list group
    expect .rparen "expected ')'"
    return group
  | .star =>
    let _ ← advance
    let name_tok ← advance
    if name_tok.kind ≠ .ident then
      error "expected identifier after '*'" name_tok
      return none
    else return some (.param (tok_span t) name_tok.name none true false false false)
  | _ => parse_expr 7

/-- The values of an assignment whose `=` has been read. -/
def parse_masgn_rhs (s : Span) (lhs : Option Node) : Parse Node := do
  let first ← parse_expr 0
  let rhs ← parse_expr_list first 0 false
  mark_locals (lhs.elim [] assign_targets)
  return .assign s (node_of lhs) (node_of rhs)

/-- The expression of a statement; on the left what a statement is that ends
with it. -/
def parse_stmt_expr (s : Span) (t : Token) : Parse (Option Node ⊕ Node) := do
  if t.kind = .star then
    let lhs ← parse_target_list (← parse_assignment_target_elem)
    if ← accept .eq then return .inr (← parse_masgn_rhs s lhs)
    else
      error "expected '=' after assignment target" (← peek)
      return .inl none
  else
    match ← parse_expr 0 with
    | none => return .inl none
    | some expr =>
      if ← check .comma then
        let lhs ← parse_expr_list (some expr) 7 true
        if ← accept .eq then return .inr (← parse_masgn_rhs s lhs)
        -- inside parentheses it may be a target itself
        else if 0 < (← mode).masgn_paren_depth then return .inl lhs
        else
          error "expected '=' after multiple assignment target" (← peek)
          return .inl none
      else return .inr expr

/-- An expression with its `rescue`. The right side of an assignment is what is
rescued. -/
def rescue_node (s : Span) (expr : Node) (rescue_body : Option Node) : Node :=
  let begin_node (n : Node) := Node.begin_ s (some (.body s [n])) [.rescue_ s [] none rescue_body] none none
  match expr with
  | .assign span target value => .assign span target (begin_node value)
  | .op_assign span op left right => .op_assign span op left (begin_node right)
  | expr => begin_node expr

def parse_rescue_modifier (s : Span) (expr : Node) : Parse Node := do
  if ← accept .rescue_ then
    let rescue_body ← parse_expr 0
    return rescue_node s expr rescue_body
  else return expr

/-- The condition behind a modifier. -/
def parse_modifier_cond : Parse Node := do
  let _ ← advance
  skip_terminators
  return node_of (← parse_expr 0)

def parse_expr_stmt (s : Span) (t : Token) : Parse (Option Node) := do
  match ← parse_stmt_expr s t with
  | .inl stmt => return stmt
  | .inr expr =>
    let expr ← parse_rescue_modifier s expr
    match (← peek).kind with
    | .if_ => return some (.if_ s (← parse_modifier_cond) (some expr) none)
    | .unless_ => return some (.unless_ s (← parse_modifier_cond) (some expr) none)
    | .while_ => return some (.while_ s (← parse_modifier_cond) (some expr) false)
    | .until_ => return some (.until_ s (← parse_modifier_cond) (some expr) false)
    | _ => return some expr

/-- What may stand between a condition and the branch behind it. -/
def parse_then (keyword : TokenKind) : Parse Unit := do
  if ← accept keyword then return () else skip_terminators

def expect_end : Parse Unit := expect .end_ "expected 'end'"

/-- A condition and the body behind it. -/
def parse_branch : Parse (Node × Node) := do
  let cond ← parse_expr 0
  parse_then .then_
  let body ← parse_body false
  return (node_of cond, body)

def elsifs_body (branches : List (Node × Node)) : Parse (List (Node × Node)) := do
  if ← accept .elsif_ then
    let branch ← parse_branch
    elsifs (branches ++ [branch])
  else return branches

/-- Each `elsif` is the else branch of the one in front of it. -/
def elsif_chain (s : Span) (else_body : Option Node) : List (Node × Node) → Option Node
  | [] => else_body
  | (cond, body) :: rest => some (.if_ s cond (some body) (elsif_chain s else_body rest))

def parse_if (s : Span) (t : Token) : Parse Node := do
  let (cond, then_body) ← parse_branch
  let branches ← elsifs []
  let else_body ← parse_optional_body .else_
  expect_end
  let else_body := elsif_chain s else_body branches
  return if t.kind = .if_ then .if_ s cond (some then_body) else_body else .unless_ s cond (some then_body) else_body

def loop_node (s : Span) (t : Token) (cond body : Node) (post_test : Bool) : Node :=
  if t.kind = .while_ then .while_ s cond (some body) post_test else .until_ s cond (some body) post_test

def parse_while (s : Span) (t : Token) : Parse Node := do
  let cond ← in_command_arg (parse_expr 0)
  parse_then .do_
  let body ← parse_body false
  expect_end
  return loop_node s t (node_of cond) body false

def parse_begin (s : Span) : Parse (Option Node) := do
  skip_terminators
  let body ← parse_body false
  match ← wrap_rescue_ensure s body with
  | none => return none
  | some n =>
    expect_end
    let t ← peek
    if t.kind = .while_ || t.kind = .until_ then
      let _ ← advance
      let cond ← parse_expr 0
      return some (loop_node s t (node_of cond) n true)
    else return some n

def def_parts_body (parts : List String) : Parse (Option (List String)) := do
  if ← accept .colon2 then
    if parts.length < 64 then
      let part ← advance
      if part.kind = .ident then return some (parts ++ [part.text])
      else if part.kind ≠ .const then
        error "expected constant or method name after '::'" part
        return none
      else def_parts (parts ++ [part.text])
    else return some parts
  else return some parts

/-- The receiver that stands in front of a dot in a definition. -/
def def_receiver (t : Token) : Option Node :=
  let s := tok_span t
  match t.kind with
  | .self => some (.self s)
  | .ident => some (.lvar s t.text)
  | .const => some (.const s t.text)
  | .ivar => some (.ivar s t.text)
  | .cvar => some (.cvar s t.text)
  | .gvar => some (.gvar s t.text)
  | _ => none

/-- The receiver and name that a path ends with. The token keeps its kind. -/
def split_parts (name_tok : Token) (parts : List String) : Option Node × Token :=
  if 2 ≤ parts.length then
    (some (.const (tok_span name_tok) ("::".intercalate parts.dropLast)), { name_tok with sval := parts.getLast? })
  else (none, name_tok)

/-- The path of a definition whose name begins with a constant. -/
def parse_def_path (name_tok : Token) : Parse (Option (List String)) := do
  if name_tok.kind = .const then
    if ← check .colon2 then def_parts [name_tok.text] else return some []
  else return some []

/-- The receiver of a definition and its name; nothing behind an error. -/
def parse_def_receiver : Parse (Option (Option Node × Token)) := do
  let name_tok ← advance
  match ← parse_def_path name_tok with
  | none => return none
  | some parts =>
    let (recv, name_tok) := split_parts name_tok parts
    if ← check .dot then
      match def_receiver name_tok with
      | none =>
        error "unexpected receiver in def" name_tok
        return none
      | some recv =>
        let _ ← advance
        let name_tok ← advance
        return some (some recv, name_tok)
    else return some (recv, name_tok)

/-- The `@` of a unary operator's definition. -/
def parse_unary_mark (name_tok : Token) (name : String) : Parse String := do
  let suffix ← peek
  if suffix.kind = .ivar && suffix.sval = some "" && (name = "-" || name = "+" || name = "!" || name = "~") &&
      token_adjacent name_tok suffix then
    let _ ← advance
    return name ++ "@"
  else return name

/-- The `?`, `!` or `=` of a definition's name. -/
def parse_def_suffix (name_tok : Token) (name : String) : Parse String := do
  let suffix ← peek
  if (name_tok.kind = .ident || name_tok.kind = .const) && token_adjacent name_tok suffix then
    if suffix.kind = .eq && (← peek_next_token).kind = .lparen then
      let _ ← advance
      return name ++ "="
    else parse_name_suffix name_tok name
  else return name

def looks_like_param (k : TokenKind) : Bool := k = .ident || k = .const || k = .star || k = .star2 || k = .amp

def parse_def_params (name_tok : Token) : Parse (List Node) := do
  if ← accept .lparen then
    let params ← parse_params
    expect .rparen "expected ')'"
    return params
  else
    let nxt ← peek
    if nxt.line = name_tok.line && looks_like_param nxt.kind then params_unparen name_tok.line [] else return []

/-- The names of parameters. -/
def param_names (params : List Node) : List String :=
  params.flatMap fun
    | .param _ name .. => name.toList
    | _ => []

/-- The local variables of a definition, those inside groups too. -/
def def_locals (params : List Node) : List String :=
  params.flatMap fun
    | .param _ name .. => name.toList
    | .array _ elements => param_names elements
    | _ => []

/-- The body of a definition whose parameters have been read. -/
def parse_def_body (s : Span) : Parse (Option Node) := do
  if ← accept .eq then
    let expr ← parse_expr 0
    return some (.body s expr.toList)
  else
    skip_terminators
    let body ← parse_body false
    match ← parse_rescued_body s body with
    | none => return none
    | some body =>
      expect_end
      return some body

def parse_def (s : Span) : Parse (Option Node) := do
  match ← parse_def_receiver with
  | none => return none
  | some (recv, name_tok) =>
    match ← method_name_from_token name_tok with
    | none =>
      error "expected method name after 'def'" name_tok
      return none
    | some name =>
      let name ← parse_unary_mark name_tok name
      let name ← parse_def_suffix name_tok name
      let params ← parse_def_params name_tok
      mark_locals (def_locals params)
      match ← parse_def_body s with
      | none => return none
      | some body => return some (.def_ s recv name params (some body))

/-- A method's name in an alias; nothing behind an error. -/
def parse_alias_name (message : String) : Parse (Option String) := do
  let tok ← advance
  match ← method_name_from_token tok with
  | none =>
    error message tok
    return none
  | some name =>
    if tok.kind = .ident || tok.kind = .const then return some (← parse_name_suffix tok name) else return some name

def parse_alias (s : Span) : Parse (Option Node) := do
  match ← parse_alias_name "expected new method name after 'alias'" with
  | none => return none
  | some new_name =>
    match ← parse_alias_name "expected existing method name after alias target" with
    | none => return none
    | some old_name => return some (.alias_ s new_name old_name)

/-- A body up to its `end`. -/
def parse_end_body : Parse Node := do
  skip_terminators
  let body ← parse_body false
  expect_end
  return body

/-- The `<<` of a singleton class, also in two tokens. -/
def accept_singleton : Parse Bool := do
  if ← accept .lshift then return true
  else if ← accept .lt then accept .lt
  else return false

def parse_class (s : Span) : Parse (Option Node) := do
  if ← accept_singleton then
    match ← parse_expr 0 with
    | none => return none
    | some recv => return some (.sclass s recv (some (← parse_end_body)))
  else
    match ← parse_const_path_name with
    | none => return none
    | some name =>
      if ← accept .lt then
        match ← parse_expr 0 with
        | none => return none
        | some superclass => return some (.class_ s name (some superclass) (some (← parse_end_body)))
      else return some (.class_ s name none (some (← parse_end_body)))

def parse_module (s : Span) : Parse (Option Node) := do
  match ← parse_const_path_name with
  | none => return none
  | some name => return some (.module_ s name (some (← parse_end_body)))

def when_patterns_body (patterns : List Node) : Parse (List Node) := do
  if ← accept .comma then
    skip_terminators
    let more ← parse_expr 0
    when_patterns (patterns ++ more.toList)
  else return patterns

def when_clauses_body (whens : List Node) : Parse (List Node) := do
  let t ← peek
  if t.kind = .when_ then
    let _ ← advance
    let pat ← parse_expr 0
    let patterns ← when_patterns pat.toList
    parse_then .then_
    let body ← parse_body false
    when_clauses (whens ++ [.when_ (tok_span t) patterns (some body)])
  else return whens

/-- The guard of an `in` clause. -/
def parse_guard : Parse (Option Node) := do
  if ← accept .if_ then parse_expr 0 else return none

def in_clauses_body (ins : List Node) : Parse (List Node) := do
  let t ← peek
  if t.kind = .in_ then
    let _ ← advance
    let pat ← parse_pattern
    let guard ← parse_guard
    parse_then .then_
    let body ← parse_body false
    in_clauses (ins ++ [.in_ (tok_span t) pat guard (some body)])
  else return ins

/-- The subject of a case, on its line. -/
def parse_case_subject : Parse (Option Node) := do
  if ← check_any fun k => k = .newline || k = .semicolon || k = .eof then return none else parse_expr 0

def parse_case (s : Span) : Parse Node := do
  let subject ← parse_case_subject
  skip_terminators
  let whens ← when_clauses []
  if ← check .in_ then
    let ins ← in_clauses []
    let else_body ← parse_optional_body .else_
    expect_end
    return .patcase s (node_of subject) ins else_body
  else
    let else_body ← parse_optional_body .else_
    expect_end
    return .case_ s subject whens else_body

def parse_for (s : Span) : Parse (Option Node) := do
  match ← parse_target_list (← parse_assignment_target_elem) with
  | none =>
    error "expected loop variable after 'for'" (← peek)
    return none
  | some target =>
    if ← accept .in_ then
      let iterable ← in_command_arg (parse_expr 0)
      mark_assign_targets target
      let _ ← accept .do_
      let body ← parse_end_body
      return some (.for_ s target (node_of iterable) (some body))
    else
      error "expected 'in' after for target" (← peek)
      return none

/-- `BEGIN { ... }` or `END { ... }`. -/
def parse_hook (s : Span) (t : Token) : Parse Node := do
  let _ ← advance
  let _ ← advance
  skip_terminators
  let body ← parse_body true
  expect .rbrace "expected '\x7d'"
  return if t.text = "BEGIN" then .prog_begin s (some body) else .prog_end s (some body)

/-- A statement that begins with a keyword, which has been read. -/
def parse_keyword_stmt (s : Span) (t : Token) : Parse (Option Node) := do
  match t.kind with
  | .while_ | .until_ => return some (← parse_while s t)
  | .begin_ => parse_begin s
  | .def_ => parse_def s
  | .alias_ => parse_alias s
  | .class_ => parse_class s
  | .case_ => return some (← parse_case s)
  | .module_ => parse_module s
  | .for_ => parse_for s
  | _ => return some (← parse_if s t)

def begins_keyword_stmt : TokenKind → Bool
  | .if_ | .unless_ | .while_ | .until_ | .begin_ | .def_ | .alias_ | .class_ | .case_ | .module_ | .for_ => true
  | _ => false

def parse_stmt_body : Parse (Option Node) := do
  let t ← peek
  let s := tok_span t
  if t.kind = .const && (t.text = "BEGIN" || t.text = "END") && (← peek_next_token).kind = .lbrace then
    return some (← parse_hook s t)
  else if begins_keyword_stmt t.kind then
    let _ ← advance
    parse_keyword_stmt s t
  else parse_expr_stmt s t

/-- The body of each function of the parser. -/
def body (num : Numerals) : (c : ParserCall) → Parse c.Answer
  | .skip_terminators => skip_terminators_body
  | .sync => sync_body
  | .program_stmts stmts => program_stmts_body stmts
  | .body_stmts stop_at_rbrace stmts => body_stmts_body stop_at_rbrace stmts
  | .rparen_stmts stmts => rparen_stmts_body stmts
  | .parse_stmt => parse_stmt_body
  | .parse_expr min_bp => parse_expr_body min_bp
  | .parse_expr_continue left min_bp => parse_expr_continue_body left min_bp
  | .parse_primary => parse_primary_body num
  | .jump_values values => jump_values_body values
  | .arrow_pairs key pairs => arrow_pairs_body key pairs
  | .command_args saved_allow_commas args => command_args_body saved_allow_commas args
  | .subscripts args => subscripts_body args
  | .paren_args args => paren_args_body args
  | .parse_param_node allow_default => parse_param_node_body allow_default
  | .param_group elems => param_group_body elems
  | .param_list params => param_list_body params
  | .params_unparen def_line params => params_unparen_body def_line params
  | .adjacent_strings sval => adjacent_strings_body sval
  | .interp_segments is_regex rope regex_flags => interp_segments_body is_regex rope regex_flags
  | .interp_strings is_backtick is_regex rope regex_flags => interp_strings_body is_backtick is_regex rope regex_flags
  | .const_path name => const_path_body name
  | .array_elements elems => array_elements_body elems
  | .hash_pairs pairs => hash_pairs_body pairs
  | .parse_pattern => parse_pattern_body num
  | .array_pattern first collection => array_pattern_body first collection
  | .hash_pattern collection => hash_pattern_body collection
  | .const_path_name name => const_path_name_body name
  | .exception_classes classes => exception_classes_body classes
  | .rescue_clauses span rescues => rescue_clauses_body span rescues
  | .parse_assignment_target_elem => parse_assignment_target_elem_body
  | .expr_list elem_min_bp assignment_target elems => expr_list_body elem_min_bp assignment_target elems
  | .elsifs branches => elsifs_body branches
  | .def_parts parts => def_parts_body parts
  | .when_patterns patterns => when_patterns_body patterns
  | .when_clauses whens => when_clauses_body whens
  | .in_clauses ins => in_clauses_body ins

end stoned.parser
