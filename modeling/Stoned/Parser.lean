import Stoned.Ast
import Stoned.Scan
import Stoned.Program.Limit

namespace stoned

open program

/-! The parser's state and its small steps (parser.h, parser.c). -/

structure ParseError where
  message : String
  line : Nat
  col : Nat
  deriving DecidableEq

def MAX_ERRORS : Nat := 64

/-- Where a parser takes its tokens from. -/
class TokenSource (L : Type) where
  lexer_peek : L → Token × L
  lexer_next : L → Token × L
  lexer_mark_local : L → String → L

instance : TokenSource Lexer where
  lexer_peek := Lexer.lexer_peek
  lexer_next := Lexer.lexer_next
  lexer_mark_local := Lexer.lexer_mark_local

/-- The end of the text, as it is seen behind tokens that have been lexed already. -/
def eof_token : Token := { kind := .eof, line := 0, col := 0, len := 0 }

instance : TokenSource (List Token) where
  lexer_peek tokens := (tokens.headD eof_token, tokens)
  lexer_next tokens := (tokens.headD eof_token, tokens.tail)
  lexer_mark_local tokens _ := tokens

/-- What the parser is in the middle of. -/
structure ParserMode where
  allow_command_arg_commas : Bool := true
  command_arg_depth : Nat := 0
  stop_at_param_pipe : Bool := false
  masgn_paren_depth : Nat := 0
  deriving DecidableEq

structure Parser (L : Type) where
  lexer : L
  errors : List ParseError := []
  panic : Bool := false
  mode : ParserMode := {}
  deriving DecidableEq

def parser_init (src : List Char) : Parser Lexer := { lexer := lexer_init src }

/-- The operations of the parser. `look` reads ahead on a copy, past `n` tokens. -/
inductive ParserOp where
  | peek
  | advance
  | look (n : Nat)
  | error (message : String) (line col : Nat)
  | mark_local (name : String)
  | mode
  | set_mode (mode : ParserMode)
  | panicking
  | calm

def ParserOp.Answer : ParserOp → Type
  | .peek | .advance | .look _ => Token
  | .error .. | .mark_local _ | .set_mode _ | .calm => Unit
  | .mode => ParserMode
  | .panicking => Bool

def parser_ops : Signature where
  Op := ParserOp
  Answer := ParserOp.Answer

namespace Parser
variable {L : Type} [TokenSource L] (p : Parser L)

def peek : Token × Parser L :=
  let (t, lexer) := TokenSource.lexer_peek p.lexer
  (t, { p with lexer })

def advance : Token × Parser L :=
  let (t, lexer) := TokenSource.lexer_next p.lexer
  (t, { p with lexer })

/-- The token behind the next `n` tokens. -/
def look : Nat → Parser L → Token
  | 0, p => p.peek.1
  | n + 1, p => look n p.advance.2

/-- Takes down an error; beyond the first 64 they are only signalled. -/
def error (message : String) (line col : Nat) : Parser L :=
  let errors := if p.errors.length < MAX_ERRORS then p.errors ++ [⟨message, line, col⟩] else p.errors
  { p with errors, panic := true }

end Parser

def parser_machine (L : Type) [TokenSource L] : Machine parser_ops (Parser L) where
  exec
    | .peek, p => some p.peek
    | .advance, p => some p.advance
    | .look n, p => some (p.look n, p)
    | .error message line col, p => some ((), p.error message line col)
    | .mark_local name, p => some ((), { p with lexer := TokenSource.lexer_mark_local p.lexer name })
    | .mode, p => some (p.mode, p)
    | .set_mode mode, p => some ((), { p with mode })
    | .panicking, p => some (p.panic, p)
    | .calm, p => some ((), { p with panic := false })

/-- The elements of an array or hash pattern read so far. -/
structure PatternCollection where
  elements : List Node := []
  has_rest : Bool := false
  has_pre_rest : Bool := false
  rest_name : Option String := none
  pre_rest_name : Option String := none

/-- The functions of the parser that call one another, and their loops: a loop
is a function of what it has read so far. -/
inductive ParserCall where
  | skip_terminators
  | sync
  | program_stmts (stmts : List Node)
  | body_stmts (stop_at_rbrace : Bool) (stmts : List Node)
  | rparen_stmts (stmts : List Node)
  | parse_stmt
  | parse_expr (min_bp : Nat)
  | parse_expr_continue (left : Node) (min_bp : Nat)
  | parse_primary
  | jump_values (values : List Node)
  | arrow_pairs (key : Node) (pairs : List Node)
  | command_args (saved_allow_commas : Bool) (args : List Node)
  | subscripts (args : List Node)
  | paren_args (args : List Node)
  | parse_param_node (allow_default : Bool)
  | param_group (elems : List Node)
  | param_list (params : List Node)
  | params_unparen (def_line : Nat) (params : List Node)
  | adjacent_strings (sval : String)
  | interp_segments (is_regex : Bool) (rope : Option (RopeNode Node)) (regex_flags : Nat)
  | interp_strings (is_backtick is_regex : Bool) (rope : Option (RopeNode Node)) (regex_flags : Nat)
  | const_path (name : String)
  | array_elements (elems : List Node)
  | hash_pairs (pairs : List Node)
  | parse_pattern
  | array_pattern (first : Bool) (collection : PatternCollection)
  | hash_pattern (collection : PatternCollection)
  | const_path_name (name : String)
  | exception_classes (classes : List Node)
  | rescue_clauses (span : Span) (rescues : List Node)
  | parse_assignment_target_elem
  | expr_list (elem_min_bp : Nat) (assignment_target : Bool) (elems : List Node)
  | elsifs (branches : List (Node × Node))
  | def_parts (parts : List String)
  | when_patterns (patterns : List Node)
  | when_clauses (whens : List Node)
  | in_clauses (ins : List Node)

/-- A function that may return a null pointer answers an `Option`. -/
def ParserCall.Answer : ParserCall → Type
  | .skip_terminators | .sync => Unit
  | .program_stmts _ | .body_stmts .. | .rparen_stmts _ | .jump_values _ | .arrow_pairs .. | .command_args ..
  | .subscripts _ | .paren_args _ | .param_group _ | .param_list _ | .params_unparen .. | .array_elements _
  | .hash_pairs _ | .exception_classes _ | .expr_list .. | .when_patterns _ | .when_clauses _ | .in_clauses _ =>
    List Node
  | .parse_stmt | .parse_expr _ | .parse_primary | .parse_pattern | .parse_assignment_target_elem => Option Node
  | .parse_expr_continue .. | .parse_param_node _ => Node
  | .adjacent_strings _ | .const_path _ => String
  | .interp_segments .. | .interp_strings .. => Option (RopeNode Node) × Nat
  | .array_pattern .. | .hash_pattern _ => PatternCollection
  | .const_path_name _ => Option String
  | .rescue_clauses .. => Option (List Node)
  | .elsifs _ => List (Node × Node)
  | .def_parts _ => Option (List String)

def parser_calls : Signature where
  Op := ParserCall
  Answer := ParserCall.Answer

/-- Programs of the parser. -/
abbrev Parse (α : Type) : Type := Program (parser_ops.withCalls parser_calls) α

/-- The name a token stands for; what a number is read from is none. -/
def Token.name (t : Token) : Option String :=
  match t.kind with
  | .int | .float | .rational | .imaginary => none
  | _ => t.sval

/-- The text of a token that has one. -/
def Token.text (t : Token) : String := t.name.getD ""

namespace parser

def op (o : ParserOp) : Parse o.Answer := perform (S := parser_ops.withCalls parser_calls) (.inl o)

def call (c : ParserCall) : Parse c.Answer := perform (S := parser_ops.withCalls parser_calls) (.inr c)

def peek : Parse Token := op .peek
def advance : Parse Token := op .advance
def look (n : Nat) : Parse Token := op (.look n)
def peek_next_token : Parse Token := look 1
def error (message : String) (t : Token) : Parse Unit := op (.error message t.line t.col)
def mark_local (name : String) : Parse Unit := op (.mark_local name)
def panicking : Parse Bool := op .panicking
def mode : Parse ParserMode := op .mode
def set_mode (m : ParserMode) : Parse Unit := op (.set_mode m)

/-- A write to the parser's mode. -/
def modify_mode (f : ParserMode → ParserMode) : Parse Unit := mode >>= fun m => set_mode (f m)

def check (kind : TokenKind) : Parse Bool := do return decide ((← peek).kind = kind)

/-- Whether the next token is one of some kinds. -/
def check_any (kinds : TokenKind → Bool) : Parse Bool := do return kinds (← peek).kind

/-- `match` in the source: takes the next token if it is of a kind. -/
def accept (kind : TokenKind) : Parse Bool := do
  if ← check kind then
    let _ ← advance
    return true
  else return false

def expect (kind : TokenKind) (message : String) : Parse Unit := do
  let t ← peek
  if t.kind = kind then
    let _ ← advance
    return ()
  else error message t

def skip_terminators : Parse Unit := call .skip_terminators
def sync : Parse Unit := call .sync
def program_stmts (stmts : List Node) : Parse (List Node) := call (.program_stmts stmts)
def body_stmts (stop_at_rbrace : Bool) (stmts : List Node) : Parse (List Node) :=
  call (.body_stmts stop_at_rbrace stmts)
def rparen_stmts (stmts : List Node) : Parse (List Node) := call (.rparen_stmts stmts)
def parse_stmt : Parse (Option Node) := call .parse_stmt
def parse_expr (min_bp : Nat) : Parse (Option Node) := call (.parse_expr min_bp)
def parse_expr_continue (left : Node) (min_bp : Nat) : Parse Node := call (.parse_expr_continue left min_bp)
def parse_primary : Parse (Option Node) := call .parse_primary
def jump_values (values : List Node) : Parse (List Node) := call (.jump_values values)
def arrow_pairs (key : Node) (pairs : List Node) : Parse (List Node) := call (.arrow_pairs key pairs)
def command_args (saved_allow_commas : Bool) (args : List Node) : Parse (List Node) :=
  call (.command_args saved_allow_commas args)
def subscripts (args : List Node) : Parse (List Node) := call (.subscripts args)
def paren_args (args : List Node) : Parse (List Node) := call (.paren_args args)
def parse_param_node (allow_default : Bool) : Parse Node := call (.parse_param_node allow_default)
def param_group (elems : List Node) : Parse (List Node) := call (.param_group elems)
def param_list (params : List Node) : Parse (List Node) := call (.param_list params)
def params_unparen (def_line : Nat) (params : List Node) : Parse (List Node) := call (.params_unparen def_line params)
def adjacent_strings (sval : String) : Parse String := call (.adjacent_strings sval)
def interp_segments (is_regex : Bool) (rope : Option (RopeNode Node)) (regex_flags : Nat) :
    Parse (Option (RopeNode Node) × Nat) := call (.interp_segments is_regex rope regex_flags)
def interp_strings (is_backtick is_regex : Bool) (rope : Option (RopeNode Node)) (regex_flags : Nat) :
    Parse (Option (RopeNode Node) × Nat) := call (.interp_strings is_backtick is_regex rope regex_flags)
def const_path (name : String) : Parse String := call (.const_path name)
def array_elements (elems : List Node) : Parse (List Node) := call (.array_elements elems)
def hash_pairs (pairs : List Node) : Parse (List Node) := call (.hash_pairs pairs)
def parse_pattern : Parse (Option Node) := call .parse_pattern
def array_pattern (first : Bool) (collection : PatternCollection) : Parse PatternCollection :=
  call (.array_pattern first collection)
def hash_pattern (collection : PatternCollection) : Parse PatternCollection := call (.hash_pattern collection)
def const_path_name (name : String) : Parse (Option String) := call (.const_path_name name)
def exception_classes (classes : List Node) : Parse (List Node) := call (.exception_classes classes)
def rescue_clauses (s : Span) (rescues : List Node) : Parse (Option (List Node)) := call (.rescue_clauses s rescues)
def parse_assignment_target_elem : Parse (Option Node) := call .parse_assignment_target_elem
def expr_list (elem_min_bp : Nat) (assignment_target : Bool) (elems : List Node) : Parse (List Node) :=
  call (.expr_list elem_min_bp assignment_target elems)
def elsifs (branches : List (Node × Node)) : Parse (List (Node × Node)) := call (.elsifs branches)
def def_parts (parts : List String) : Parse (Option (List String)) := call (.def_parts parts)
def when_patterns (patterns : List Node) : Parse (List Node) := call (.when_patterns patterns)
def when_clauses (whens : List Node) : Parse (List Node) := call (.when_clauses whens)
def in_clauses (ins : List Node) : Parse (List Node) := call (.in_clauses ins)

def tok_span (t : Token) : Span where
  line := t.line.toUInt32
  col := t.col.toUInt32
  len := t.len.toUInt32

def token_adjacent (left right : Token) : Bool := left.line = right.line && right.col = left.col + left.len

/-- A null pointer where the tree has a node. Evaluated, it is nil. -/
def null_node : Node := .nil { line := 0, col := 0, len := 0 }

def node_of (n : Option Node) : Node := n.getD null_node

def skip_terminators_body : Parse Unit := do
  if ← check_any fun k => k = .newline || k = .semicolon then
    let _ ← advance
    skip_terminators
  else return ()

/-- The tokens at which parsing goes on behind an error. -/
def is_sync (k : TokenKind) : Bool :=
  k = .eof || k = .newline || k = .semicolon || k = .def_ || k = .class_ || k = .module_ || k = .end_

def sync_body : Parse Unit := do
  op .calm
  if ← check_any is_sync then return ()
  else
    let _ ← advance
    sync

/-- The statement that was parsed is kept, unless there was an error in it. -/
def append_stmt {α : Type} (stmts : List Node) (next : List Node → Parse α) : Parse α := do
  let stmt ← parse_stmt
  if ← panicking then
    sync
    next stmts
  else next (stmts ++ stmt.toList)

def program_stmts_body (stmts : List Node) : Parse (List Node) := do
  let t ← peek
  if t.kind = .eof then return stmts
  else if t.kind = .error then
    let t ← advance
    error (t.name.getD "invalid token") t
    sync
    program_stmts stmts
  else
    let stmt ← parse_stmt
    if ← panicking then
      sync
      program_stmts stmts
    else
      skip_terminators
      program_stmts (stmts ++ stmt.toList)

def parse_program : Parse Node := do
  skip_terminators
  let stmts ← program_stmts []
  return .program { line := 1, col := 1, len := 0 } stmts

/-- The tokens that end a body. -/
def ends_body (stop_at_rbrace : Bool) (k : TokenKind) : Bool :=
  k = .eof || k = .end_ || k = .else_ || k = .elsif_ || k = .ensure_ || k = .rescue_ || k = .when_ || k = .in_ ||
    (stop_at_rbrace && k = .rbrace)

def body_stmts_body (stop_at_rbrace : Bool) (stmts : List Node) : Parse (List Node) := do
  skip_terminators
  if ← check_any (ends_body stop_at_rbrace) then return stmts
  else append_stmt stmts (body_stmts stop_at_rbrace)

def parse_body (stop_at_rbrace : Bool) : Parse Node := do
  let s := tok_span (← peek)
  let stmts ← body_stmts stop_at_rbrace []
  return .body s stmts

end parser
end stoned
