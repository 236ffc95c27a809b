import Stoned.Statement
import Stoned.Program.Total

namespace stoned.parser

open program

/-! No function of the parser is cut off before it returns. -/

variable {α : Type}

theorem whole_op (o : ParserOp) : (op o).Whole := .step fun answer => .ret answer

theorem whole_call (c : ParserCall) : (call c).Whole := .step fun answer => .ret answer

instance : peek.Whole := whole_op _
instance : advance.Whole := whole_op _
instance (n : Nat) : (look n).Whole := whole_op _
instance (message : String) (t : Token) : (error message t).Whole := whole_op _
instance (name : String) : (mark_local name).Whole := whole_op _
instance : panicking.Whole := whole_op _
instance : mode.Whole := whole_op _
instance (m : ParserMode) : (set_mode m).Whole := whole_op _
instance : skip_terminators.Whole := whole_call _
instance : sync.Whole := whole_call _
instance (stmts : List Node) : (program_stmts stmts).Whole := whole_call _
instance (stop_at_rbrace : Bool) (stmts : List Node) : (body_stmts stop_at_rbrace stmts).Whole := whole_call _
instance (stmts : List Node) : (rparen_stmts stmts).Whole := whole_call _
instance : parse_stmt.Whole := whole_call _
instance (min_bp : Nat) : (parse_expr min_bp).Whole := whole_call _
instance (left : Node) (min_bp : Nat) : (parse_expr_continue left min_bp).Whole := whole_call _
instance : parse_primary.Whole := whole_call _
instance (values : List Node) : (jump_values values).Whole := whole_call _
instance (key : Node) (pairs : List Node) : (arrow_pairs key pairs).Whole := whole_call _
instance (saved_allow_commas : Bool) (args : List Node) : (command_args saved_allow_commas args).Whole := whole_call _
instance (args : List Node) : (subscripts args).Whole := whole_call _
instance (args : List Node) : (paren_args args).Whole := whole_call _
instance (allow_default : Bool) : (parse_param_node allow_default).Whole := whole_call _
instance (elems : List Node) : (param_group elems).Whole := whole_call _
instance (params : List Node) : (param_list params).Whole := whole_call _
instance (def_line : Nat) (params : List Node) : (params_unparen def_line params).Whole := whole_call _
instance (sval : String) : (adjacent_strings sval).Whole := whole_call _
instance (is_regex : Bool) (rope : Option (RopeNode Node)) (regex_flags : Nat) :
    (interp_segments is_regex rope regex_flags).Whole := whole_call _
instance (is_backtick : Bool) (is_regex : Bool) (rope : Option (RopeNode Node)) (regex_flags : Nat) :
    (interp_strings is_backtick is_regex rope regex_flags).Whole := whole_call _
instance (name : String) : (const_path name).Whole := whole_call _
instance (elems : List Node) : (array_elements elems).Whole := whole_call _
instance (pairs : List Node) : (hash_pairs pairs).Whole := whole_call _
instance : parse_pattern.Whole := whole_call _
instance (first : Bool) (collection : PatternCollection) : (array_pattern first collection).Whole := whole_call _
instance (collection : PatternCollection) : (hash_pattern collection).Whole := whole_call _
instance (name : String) : (const_path_name name).Whole := whole_call _
instance (classes : List Node) : (exception_classes classes).Whole := whole_call _
instance (s : Span) (rescues : List Node) : (rescue_clauses s rescues).Whole := whole_call _
instance : parse_assignment_target_elem.Whole := whole_call _
instance (elem_min_bp : Nat) (assignment_target : Bool) (elems : List Node) :
    (expr_list elem_min_bp assignment_target elems).Whole := whole_call _
instance (branches : List (Node × Node)) : (elsifs branches).Whole := whole_call _
instance (parts : List String) : (def_parts parts).Whole := whole_call _
instance (patterns : List Node) : (when_patterns patterns).Whole := whole_call _
instance (whens : List Node) : (when_clauses whens).Whole := whole_call _
instance (ins : List Node) : (in_clauses ins).Whole := whole_call _

instance : peek_next_token.Whole := by unfold peek_next_token; infer_instance
instance (f : ParserMode → ParserMode) : (modify_mode f).Whole := by unfold modify_mode; infer_instance
instance (kind : TokenKind) : (check kind).Whole := by unfold check; infer_instance
instance (kinds : TokenKind → Bool) : (check_any kinds).Whole := by unfold check_any; infer_instance
instance (kind : TokenKind) : (accept kind).Whole := by unfold accept; infer_instance
instance (kind : TokenKind) (message : String) : (expect kind message).Whole := by unfold expect; infer_instance

instance (stmts : List Node) (next : List Node → Parse α) [∀ stmts, (next stmts).Whole] :
    (append_stmt stmts next).Whole := by
  unfold append_stmt
  infer_instance

instance : parse_program.Whole := by unfold parse_program; infer_instance
instance (stop_at_rbrace : Bool) : (parse_body stop_at_rbrace).Whole := by unfold parse_body; infer_instance

instance (names : List String) : (mark_locals names).Whole := by
  unfold mark_locals
  induction names with
  | nil => exact .ret ()
  | cons name names ih => exact Program.Whole.seq (whole_op _) fun _ => ih

instance (target : Node) : (mark_assign_targets target).Whole := by unfold mark_assign_targets; infer_instance

instance (change restore : ParserMode → ParserMode) (parse : Parse α) [parse.Whole] :
    (with_mode change restore parse).Whole := by
  unfold with_mode
  infer_instance

instance (allow : Bool) (parse : Parse α) [parse.Whole] : (with_allow_commas allow parse).Whole := by
  unfold with_allow_commas
  infer_instance

instance (parse : Parse α) [parse.Whole] : (in_command_arg parse).Whole := by unfold in_command_arg; infer_instance
instance : parse_exception_classes.Whole := by unfold parse_exception_classes; infer_instance
instance (keyword : TokenKind) : (parse_optional_body keyword).Whole := by unfold parse_optional_body; infer_instance

instance (s : Span) (body : Node) : (wrap_rescue_ensure s body).Whole := by
  unfold wrap_rescue_ensure
  refine .seq inferInstance fun _ => ?_
  split <;> infer_instance

instance (s : Span) (body : Node) : (parse_rescued_body s body).Whole := by unfold parse_rescued_body; infer_instance
instance (brace : Bool) : (expect_block_end brace).Whole := by unfold expect_block_end; infer_instance
instance : parse_params.Whole := by unfold parse_params; infer_instance
instance : parse_block_params.Whole := by unfold parse_block_params; infer_instance

instance : parse_block.Whole := by
  unfold parse_block
  repeat' first | infer_instance | split | refine .seq inferInstance fun _ => ?_

instance (allow_do : ParserMode → Bool) : (parse_call_block allow_do).Whole := by
  unfold parse_call_block
  infer_instance

instance (arg : Option Node) (min_bp : Nat) : (attach_pending_do_block arg min_bp).Whole := by
  unfold attach_pending_do_block
  split
  · infer_instance
  · refine .seq inferInstance fun _ => ?_
    split
    · split <;> infer_instance
    · infer_instance

instance (key : Node) : (parse_command_hash key).Whole := by unfold parse_command_hash; infer_instance
instance (first_key : Node) : (parse_arrow_hash first_key).Whole := by unfold parse_arrow_hash; infer_instance

instance : parse_arg_expr.Whole := by
  unfold parse_arg_expr
  repeat' first | infer_instance | split | refine .seq inferInstance fun _ => ?_

instance (s : Span) : (parse_splat_arg s).Whole := by unfold parse_splat_arg; infer_instance
instance (s : Span) : (parse_block_pass s).Whole := by unfold parse_block_pass; infer_instance
instance (t : Token) : (parse_command_arg t).Whole := by unfold parse_command_arg; infer_instance
instance : parse_command_args.Whole := by unfold parse_command_args; infer_instance
instance (t : Token) : (parse_paren_arg t).Whole := by unfold parse_paren_arg; infer_instance
instance : parse_args.Whole := by unfold parse_args; infer_instance
instance : parse_paren_args.Whole := by unfold parse_paren_args; infer_instance
instance : parse_subscripts.Whole := by unfold parse_subscripts; infer_instance
instance (left : Node) : (parse_index left).Whole := by unfold parse_index; infer_instance
instance (left : Node) (bp : BP) : (parse_assign left bp).Whole := by unfold parse_assign; infer_instance

instance (left : Node) (op : Token) (bp : BP) : (parse_op_assign left op bp).Whole := by
  unfold parse_op_assign
  infer_instance

instance (bp : BP) : (parse_range_rhs bp).Whole := by unfold parse_range_rhs; infer_instance

instance (left : Node) (op : Token) (bp : BP) : (parse_range left op bp).Whole := by
  unfold parse_range
  infer_instance

instance (left : Node) (op : Token) (bp : BP) : (parse_binop left op bp).Whole := by
  unfold parse_binop
  infer_instance

instance (left : Node) : (parse_ternary left).Whole := by unfold parse_ternary; infer_instance

instance (op name_tok : Token) : (parse_method_name op name_tok).Whole := by
  unfold parse_method_name
  infer_instance

instance (name_tok : Token) (name : String) : (parse_name_suffix name_tok name).Whole := by
  unfold parse_name_suffix
  infer_instance

instance (name_tok : Token) (name : String) : (parse_dot_args name_tok name).Whole := by
  unfold parse_dot_args
  infer_instance

instance (left : Node) (op name_tok : Token) : (parse_method_call left op name_tok).Whole := by
  unfold parse_method_call
  refine .seq inferInstance fun _ => ?_
  split <;> infer_instance

instance (left : Node) (op : Token) : (parse_dot left op).Whole := by
  unfold parse_dot
  split <;> infer_instance

instance (left : Node) (op : Token) : ( parse_infix left op).Whole := by
  unfold parse_infix
  split <;> infer_instance

instance : next_operator.Whole := by unfold next_operator; infer_instance

instance (s : Span) (first : Option Node) : (parse_jump_value s first).Whole := by
  unfold parse_jump_value
  split <;> infer_instance

instance (parse : Parse (Option Node)) [parse.Whole] : (parse_jump parse).Whole := by
  unfold parse_jump
  infer_instance

instance : parse_body_until_rparen.Whole := by unfold parse_body_until_rparen; infer_instance
instance : parse_paren.Whole := by unfold parse_paren; infer_instance
instance : parse_hash_key.Whole := by unfold parse_hash_key; infer_instance

instance (last : α) (next : Parse α) [next.Whole] : (behind_comma last next).Whole := by
  unfold behind_comma
  infer_instance

instance (s : Span) : (parse_array s).Whole := by unfold parse_array; infer_instance

instance (ps : Span) (key : Option Node) (pairs : List Node) : (parse_pair ps key pairs).Whole := by
  unfold parse_pair
  refine .seq inferInstance fun _ => ?_
  split <;> infer_instance

instance (s : Span) : (parse_hash s).Whole := by unfold parse_hash; infer_instance
instance : parse_splat_name.Whole := by unfold parse_splat_name; infer_instance

instance (allow_default : Bool) : (parse_keyword_default allow_default).Whole := by
  unfold parse_keyword_default
  infer_instance

instance (s : Span) (name : Option String) (allow_default : Bool) : (parse_named_param s name allow_default).Whole := by
  unfold parse_named_param
  infer_instance

instance : parse_lambda_params.Whole := by unfold parse_lambda_params; infer_instance

instance (s : Span) : (parse_lambda_literal s).Whole := by
  unfold parse_lambda_literal
  repeat' first | infer_instance | split | refine .seq inferInstance fun _ => ?_

instance (s : Span) (t : Token) : (parse_string s t).Whole := by unfold parse_string; infer_instance

instance (s : Span) (t : Token) : (parse_interp s t).Whole := by
  unfold parse_interp
  split <;> infer_instance

instance (s : Span) (name : String) : (parse_paren_call s name).Whole := by unfold parse_paren_call; infer_instance

instance (s : Span) (name : String) : (parse_command_call s name).Whole := by
  unfold parse_command_call
  infer_instance

instance (s : Span) (t : Token) : (parse_const s t).Whole := by unfold parse_const; infer_instance
instance (s : Span) (t : Token) : (parse_ident s t).Whole := by unfold parse_ident; infer_instance
instance (t : Token) : (parse_yield_args t).Whole := by unfold parse_yield_args; infer_instance
instance (s : Span) (t : Token) : (parse_yield s t).Whole := by unfold parse_yield; infer_instance
instance (s : Span) (t : Token) : (parse_super s t).Whole := by unfold parse_super; infer_instance
instance (s : Span) : (parse_defined s).Whole := by unfold parse_defined; infer_instance
instance (s : Span) : (parse_top_const s).Whole := by unfold parse_top_const; infer_instance
instance (bp : BP) : (parse_range_ending bp).Whole := by unfold parse_range_ending; infer_instance
instance (s : Span) (t : Token) : (parse_beginless_range s t).Whole := by unfold parse_beginless_range; infer_instance

instance (num : Numerals) (t : Token) : (parse_operand num t).Whole := by
  unfold parse_operand
  split <;> infer_instance

instance : parse_rest_name.Whole := by unfold parse_rest_name; infer_instance
instance (s : Span) : (parse_array_pattern s).Whole := by unfold parse_array_pattern; infer_instance

instance (key_tok : Token) (key_name : String) : (parse_key_pattern key_tok key_name).Whole := by
  unfold parse_key_pattern
  infer_instance

instance (rest_name : Option String) : (parse_hash_rest rest_name).Whole := by unfold parse_hash_rest; infer_instance
instance (s : Span) : (parse_hash_pattern s).Whole := by unfold parse_hash_pattern; infer_instance

instance (num : Numerals) (s : Span) : (parse_negative_literal num s).Whole := by
  unfold parse_negative_literal
  refine .seq inferInstance fun _ => ?_
  split <;> infer_instance

instance (num : Numerals) (t : Token) : (parse_simple_pattern num t).Whole := by
  unfold parse_simple_pattern
  split <;> infer_instance

instance (s : Span) (pat : Node) : (parse_capture s pat).Whole := by unfold parse_capture; infer_instance

instance (num : Numerals) (t : Token) : (parse_pattern_operand num t).Whole := by
  unfold parse_pattern_operand
  infer_instance

instance : parse_const_path_name.Whole := by unfold parse_const_path_name; infer_instance

instance (tok : Token) : (method_name_from_token tok).Whole := by
  unfold method_name_from_token
  split <;> infer_instance

instance (elem_min_bp : Nat) (assignment_target : Bool) : (parse_list_elem elem_min_bp assignment_target).Whole := by
  unfold parse_list_elem
  infer_instance

instance (first : Option Node) (elem_min_bp : Nat) (assignment_target : Bool) : (parse_expr_list first elem_min_bp assignment_target).Whole := by
  unfold parse_expr_list
  split <;> infer_instance

instance (first : Option Node) : (parse_target_list first).Whole := by unfold parse_target_list; infer_instance
instance (s : Span) (lhs : Option Node) : (parse_masgn_rhs s lhs).Whole := by unfold parse_masgn_rhs; infer_instance

instance (s : Span) (t : Token) : (parse_stmt_expr s t).Whole := by
  unfold parse_stmt_expr
  split
  · infer_instance
  · refine .seq inferInstance fun _ => ?_
    split <;> infer_instance

instance (s : Span) (expr : Node) : (parse_rescue_modifier s expr).Whole := by
  unfold parse_rescue_modifier
  infer_instance

instance : parse_modifier_cond.Whole := by unfold parse_modifier_cond; infer_instance

instance (s : Span) (t : Token) : (parse_expr_stmt s t).Whole := by
  unfold parse_expr_stmt
  repeat' first | infer_instance | split | refine .seq inferInstance fun _ => ?_

instance (keyword : TokenKind) : (parse_then keyword).Whole := by unfold parse_then; infer_instance
instance : expect_end.Whole := by unfold expect_end; infer_instance
instance : parse_branch.Whole := by unfold parse_branch; infer_instance
instance (s : Span) (t : Token) : (parse_if s t).Whole := by unfold parse_if; infer_instance
instance (s : Span) (t : Token) : (parse_while s t).Whole := by unfold parse_while; infer_instance

instance (s : Span) : (parse_begin s).Whole := by
  unfold parse_begin
  repeat' first | infer_instance | split | refine .seq inferInstance fun _ => ?_

instance (name_tok : Token) : (parse_def_path name_tok).Whole := by unfold parse_def_path; infer_instance

instance : parse_def_receiver.Whole := by
  unfold parse_def_receiver
  repeat' first | infer_instance | split | refine .seq inferInstance fun _ => ?_

instance (name_tok : Token) (name : String) : (parse_unary_mark name_tok name).Whole := by
  unfold parse_unary_mark
  infer_instance

instance (name_tok : Token) (name : String) : (parse_def_suffix name_tok name).Whole := by
  unfold parse_def_suffix
  infer_instance

instance (name_tok : Token) : (parse_def_params name_tok).Whole := by unfold parse_def_params; infer_instance

instance (s : Span) : (parse_def_body s).Whole := by
  unfold parse_def_body
  repeat' first | infer_instance | split | refine .seq inferInstance fun _ => ?_

instance (s : Span) : (parse_def s).Whole := by
  unfold parse_def
  repeat' first | infer_instance | split | refine .seq inferInstance fun _ => ?_

instance (message : String) : (parse_alias_name message).Whole := by
  unfold parse_alias_name
  refine .seq inferInstance fun _ => .seq inferInstance fun _ => ?_
  split <;> infer_instance

instance (s : Span) : (parse_alias s).Whole := by
  unfold parse_alias
  refine .seq inferInstance fun _ => ?_
  split
  · infer_instance
  · refine .seq inferInstance fun _ => ?_
    split <;> infer_instance

instance : parse_end_body.Whole := by unfold parse_end_body; infer_instance
instance : accept_singleton.Whole := by unfold accept_singleton; infer_instance

instance (s : Span) : (parse_class s).Whole := by
  unfold parse_class
  repeat' first | infer_instance | split | refine .seq inferInstance fun _ => ?_

instance (s : Span) : (parse_module s).Whole := by
  unfold parse_module
  refine .seq inferInstance fun _ => ?_
  split <;> infer_instance

instance : parse_guard.Whole := by unfold parse_guard; infer_instance
instance : parse_case_subject.Whole := by unfold parse_case_subject; infer_instance
instance (s : Span) : (parse_case s).Whole := by unfold parse_case; infer_instance

instance (s : Span) : (parse_for s).Whole := by
  unfold parse_for
  refine .seq inferInstance fun _ => .seq inferInstance fun _ => ?_
  split <;> infer_instance

instance (s : Span) (t : Token) : (parse_hook s t).Whole := by unfold parse_hook; infer_instance

instance (s : Span) (t : Token) : (parse_keyword_stmt s t).Whole := by
  unfold parse_keyword_stmt
  split <;> infer_instance

end stoned.parser
