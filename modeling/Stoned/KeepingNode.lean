import Stoned.Keeping

namespace stoned

open program

/-! The evaluation of nodes leaves the evaluator where it is, if method bodies do. -/

/-- Method bodies that are run keep what is to be kept. -/
class Covers (K : Keep (state_ops.withCalls evaluator_calls) State) : Prop extends Guard K where
  run_method_body : ∀ frame name body site, (run_method_body frame name body site).Keeps K

section
variable {K : Keep (state_ops.withCalls evaluator_calls) State} [Covers K]

instance (frame : Env) (name : String) (body : Option Node) (site : Option Span) :
    (run_method_body frame name body site).Keeps K := Covers.run_method_body frame name body site

instance (method_name : String) : (make_symbol_proc method_name).Keeps K := by unfold make_symbol_proc; infer_instance

instance (receiver : Value) (method_name : String) (forced_arity : Int64) :
    (make_bound_method_proc receiver method_name forced_arity).Keeps K := by
  unfold make_bound_method_proc
  infer_instance

instance (method_obj : Value) : (method_object_arity method_obj).Keeps K := by
  unfold method_object_arity
  repeat' first | infer_instance | split | refine .seq inferInstance fun _ => ?_

instance (bp : Value) : (block_from bp).Keeps K := by
  unfold block_from
  repeat' first | infer_instance | split | refine .seq inferInstance fun _ => ?_

instance (env : Env) (block : Option Node) (block_pass : Option (Option Node)) :
    (block_of_call env block block_pass).Keeps K := by
  unfold block_of_call
  split <;> infer_instance

instance (env : Env) (entries : List (String × Value)) : (set_all env entries).Keeps K := by
  induction entries with
  | nil => exact .ret _
  | cons first rest ih =>
    unfold set_all
    infer_instance

instance (closure : Env) (params : List Node) (bindings : List (String × Value)) (args : List Value)
    (blk : Option Value) :
    (inline_frame closure params bindings args blk).Keeps K := by
  unfold inline_frame
  infer_instance

instance (closure : Env) (params : List Node) (bindings : List (String × Value)) (args : List Value)
    (blk : Option Value) :
    (enter_inline closure params bindings args blk).Keeps K := by
  unfold enter_inline
  infer_instance

instance (fn : Value) (bindings : List (String × Value)) (name : String) (args : List Value) (blk : Option Value)
    (site : Option Span) :
    (call_inline fn bindings name args blk site).Keeps K := by
  unfold call_inline
  repeat' first | infer_instance | split | refine .seq inferInstance fun _ => ?_

instance (fn : Value) (name : String) (args : List Value) (blk : Option Value) (site : Option Span) :
    (call_method fn name args blk site).Keeps K := by
  unfold call_method
  infer_instance

instance (self : Value) (name : String) : (self_has_method self name).Keeps K := by
  unfold self_has_method
  repeat' first | infer_instance | split | refine .seq inferInstance fun _ => ?_

instance (env : Env) (name : String) : (find_bare_method env name).Keeps K := by
  unfold find_bare_method
  refine .seq inferInstance fun _ => .seq inferInstance fun _ => ?_
  split <;> infer_instance

instance (env : Env) (name : String) (args : List Value) (blk : Option Value) (site : Option Span) :
    (call_on_late_self env name args blk site).Keeps K := by
  unfold call_on_late_self
  refine .seq inferInstance fun self => .seq inferInstance fun ev => ?_
  dsimp only
  split
  · split
    all_goals
      refine .seq inferInstance fun singleton => ?_
      repeat' first | infer_instance | split | refine .seq inferInstance fun _ => ?_
  all_goals repeat' first | infer_instance | split | refine .seq inferInstance fun _ => ?_

instance (env : Env) (name : String) (args : List Value) (blk : Option Value) (site : Option Span) :
    (call_without_self env name args blk site).Keeps K := by
  unfold call_without_self
  refine .seq inferInstance fun self => ?_
  dsimp only
  split <;> repeat' first | infer_instance | split | refine .seq inferInstance fun _ => ?_

instance (env : Env) (name : String) (args : List Value) (blk : Option Value) (site : Option Span) :
    (eval_bare_call env name args blk site).Keeps K := by
  unfold eval_bare_call
  repeat' first | infer_instance | split | refine .seq inferInstance fun _ => ?_

instance (env : Env) (recv_node : Node) (result : Value) : (update_receiver env recv_node result).Keeps K := by
  unfold update_receiver
  repeat' first | infer_instance | split | refine .seq inferInstance fun _ => ?_

instance (env : Env) (recv_node : Node) (recv : Value) (method : String) (args : List Value) (result : Value) :
    (write_back env recv_node recv method args result).Keeps K := by
  unfold write_back
  repeat' first | infer_instance | split

instance (env : Env) (span : Span) (recv_node : Node) (method : String) (args : List Value) (blk : Option Value)
    (safe_nav : Bool) : (eval_receiver_call env span recv_node method args blk safe_nav).Keeps K := by
  unfold eval_receiver_call
  refine .seq inferInstance fun recv => .seq inferInstance fun _ => .ite inferInstance (.ite inferInstance ?_)
  dsimp only
  split
  all_goals
    refine .seq inferInstance fun subscript => ?_
    split <;> infer_instance

instance (env : Env) (span : Span) (recv : Option Node) (method : String) (arg_nodes : List Node) (block : Option Node)
    (safe_nav : Bool) :
    (eval_call env span recv method arg_nodes block safe_nav).Keeps K := by
  unfold eval_call
  repeat' first | infer_instance | split | refine .seq inferInstance fun _ => ?_

instance (self : Value) (class_env : Option Env) (method_name : String) :
    (enclosing_method self class_env method_name).Keeps K := by
  unfold enclosing_method
  dsimp only
  split <;> repeat' first | infer_instance | split | refine .seq inferInstance fun _ => ?_

instance (env : Env) (vals : List Value) (nodes : List Node) : (forwarded_args env vals nodes).Keeps K := by
  induction nodes generalizing vals with
  | nil => exact .ret _
  | cons first rest ih =>
    unfold forwarded_args
    repeat' first | infer_instance | split | refine .seq inferInstance fun _ => ?_

instance (env : Env) (vals : List Value) (nodes : List Node) : (eval_super_args env vals nodes).Keeps K := by
  induction nodes generalizing vals with
  | nil => exact .ret _
  | cons first rest ih =>
    unfold eval_super_args
    infer_instance

instance (env : Env) (self : Value) (cur_class : Ref) (method_name : String) (args : List Node) (forward_args : Bool) :
    (super_args env self cur_class method_name args forward_args).Keeps K := by
  unfold super_args
  repeat' first | infer_instance | split | refine .seq inferInstance fun _ => ?_

instance (self : Value) (cur_class : Ref) (method_name : String) : (find_super self cur_class method_name).Keeps K := by
  unfold find_super
  repeat' first | infer_instance | split | refine .seq inferInstance fun _ => ?_

instance (env : Env) (span : Span) (args : List Node) (forward_args : Bool) :
    (eval_super env span args forward_args).Keeps K := by
  unfold eval_super
  repeat' first | infer_instance | split | refine .seq inferInstance fun _ => ?_

instance (env : Env) : (current_method_visibility env).Keeps K := by
  unfold current_method_visibility
  refine .seq inferInstance fun _ => ?_
  split <;> infer_instance

instance (env : Env) : (is_module_function_mode env).Keeps K := by
  unfold is_module_function_mode
  refine .seq inferInstance fun _ => ?_
  split <;> infer_instance

instance (env : Env) (visibility : MethodVisibility) : (set_current_method_visibility env visibility).Keeps K := by
  unfold set_current_method_visibility
  infer_instance

instance (node : Node) (visibility : MethodVisibility) : (method_of node visibility).Keeps K := by
  unfold method_of
  infer_instance

instance (env : Env) (klass : Value) (mname : String) (site : Span) :
    (fire_method_added env klass mname site).Keeps K := by
  unfold fire_method_added
  split <;> infer_instance

instance (recv method : Value) (name : String) : (define_in_singleton recv method name).Keeps K := by
  unfold define_in_singleton
  refine .seq inferInstance fun _ => ?_
  split <;> infer_instance

instance (klass : Ref) (name : String) (val : Value) : (define_in_class klass name val).Keeps K := by
  unfold define_in_class
  refine .seq inferInstance fun _ => ?_
  split <;> infer_instance

instance (node : Node) (recv : Value) (name : String) (span : Span) :
    (define_on_receiver node recv name span).Keeps K := by
  unfold define_on_receiver
  split <;> infer_instance

instance (env : Env) (self : Value) : (def_target env self).Keeps K := by unfold def_target; split <;> infer_instance

instance (env : Env) (node : Node) (name : String) (span : Span) (self : Value) (target : Env) :
    (define_method env node name span self target).Keeps K := by
  unfold define_method
  repeat' first | infer_instance | split | refine .seq inferInstance fun _ => ?_

instance (env : Env) (node : Node) (name : String) (span : Span) : (define_plain env node name span).Keeps K := by
  unfold define_plain
  repeat' first | infer_instance | split | refine .seq inferInstance fun _ => ?_

instance (env : Env) (span : Span) (recv : Option Node) (name : String) (params : List Node) (body : Option Node) :
    (eval_def env span recv name params body).Keeps K := by
  unfold eval_def
  repeat' first | infer_instance | split | refine .seq inferInstance fun _ => ?_

instance (env : Env) (klass : Ref) (class_env : Env) (new_name old_name : String) :
    (alias_in_class env klass class_env new_name old_name).Keeps K := by
  unfold alias_in_class
  refine .seq inferInstance fun target => ?_
  dsimp only
  split
  all_goals
    refine .seq inferInstance fun in_singleton_class => ?_
    repeat' first | infer_instance | split | refine .seq inferInstance fun _ => ?_

instance (env : Env) (span : Span) (new_name old_name : String) : (eval_alias env span new_name old_name).Keeps K := by
  unfold eval_alias
  refine .seq inferInstance fun self => ?_
  dsimp only
  split <;> repeat' first | infer_instance | split | refine .seq inferInstance fun _ => ?_

instance (env : Env) (name : String) : (definition_place env name).Keeps K := by
  unfold definition_place
  repeat' first | infer_instance | split | refine .seq inferInstance fun _ => ?_

instance (target_env : Env) (leaf_name full_name : String) (superclass : Option Ref) (is_module : Bool) :
    (new_class target_env leaf_name full_name superclass is_module).Keeps K := by
  unfold new_class
  infer_instance

instance (superclass klass : Ref) (site : Span) (refs : List Ref) :
    (fire_inherited superclass klass site refs).Keeps K := by
  induction refs with
  | nil => exact .ret _
  | cons first rest ih =>
    unfold fire_inherited
    refine .seq inferInstance fun _ => .seq inferInstance fun _ => ?_
    split <;> infer_instance

instance (k : Ref) (body : Option Node) : (run_class_body k body).Keeps K := by
  unfold run_class_body
  repeat' first | infer_instance | split | refine .seq inferInstance fun _ => ?_

instance (env : Env) (leaf_name : String) (superclass : Option Node) :
    (eval_superclass env leaf_name superclass).Keeps K := by
  unfold eval_superclass
  repeat' first | infer_instance | split | refine .seq inferInstance fun _ => ?_

instance (env : Env) (span : Span) (name : String) (superclass body : Option Node) :
    (eval_class env span name superclass body).Keeps K := by
  unfold eval_class
  refine .seq inferInstance fun place => ?_
  split
  · infer_instance
  · refine .seq inferInstance fun found => ?_
    dsimp only
    split
    all_goals repeat' first | infer_instance | split | refine .seq inferInstance fun _ => ?_

instance (env : Env) (span : Span) (name : String) (body : Option Node) : (eval_module env span name body).Keeps K := by
  unfold eval_module
  repeat' first | infer_instance | split | refine .seq inferInstance fun _ => ?_

instance (recv : Value) : (singleton_class_env recv).Keeps K := by
  unfold singleton_class_env
  repeat' first | infer_instance | split | refine .seq inferInstance fun _ => ?_

instance (env : Env) (span : Span) (recv : Node) (body : Option Node) : (eval_sclass env span recv body).Keeps K := by
  unfold eval_sclass
  repeat' first | infer_instance | split | refine .seq inferInstance fun _ => ?_

instance (env : Env) (span : Span) (sval : String) (enc : StringEncodingTag) (right : Value) :
    (string_plus env span sval enc right).Keeps K := by
  unfold string_plus
  repeat' first | infer_instance | split | refine .seq inferInstance fun _ => ?_

instance (env : Env) (span : Span) (op : String) (left_node : Node) (left right : Value) :
    (send_operator env span op left_node left right).Keeps K := by
  unfold send_operator
  infer_instance

instance (env : Env) (span : Span) (op : String) (left_node : Node) (left right : Value) :
    (apply_binop env span op left_node left right).Keeps K := by
  unfold apply_binop
  repeat' first | infer_instance | split | refine .seq inferInstance fun _ => ?_

instance (env : Env) (span : Span) (op : String) (left_node right_node : Node) :
    (eval_binop env span op left_node right_node).Keeps K := by
  unfold eval_binop
  infer_instance

instance (env : Env) (span : Span) (op : String) (left right : Node) :
    (eval_op_assign env span op left right).Keeps K := by
  unfold eval_op_assign
  split <;> infer_instance

instance (env : Env) (target value : Node) : (eval_assign env target value).Keeps K := by
  unfold eval_assign
  infer_instance

instance (env : Env) (span : Span) (operand : Value) (name : String) (rest : P Value) [rest.Keeps K] :
    (send_unary env span operand name rest).Keeps K := by
  unfold send_unary
  infer_instance

instance (operand : Value) : (complex_class_of operand).Keeps K := by
  unfold complex_class_of
  repeat' first | infer_instance | split | refine .seq inferInstance fun _ => ?_

instance (env : Env) (span : Span) (operand : Value) (rest : P Value) [rest.Keeps K] :
    (negate_value env span operand rest).Keeps K := by
  unfold negate_value
  refine .seq inferInstance fun _ => ?_
  split <;> infer_instance

instance (env : Env) (span : Span) (op : String) (operand : Node) : (eval_unop env span op operand).Keeps K := by
  unfold eval_unop
  refine .seq inferInstance fun _ => ?_
  split <;> infer_instance

instance (env : Env) (v : Value) : (rope_text env v).Keeps K := by
  unfold rope_text
  repeat' first | infer_instance | split | refine .seq inferInstance fun _ => ?_

instance (env : Env) (text : String) (rope : RopeNode Node) : (rope_collect env text rope).Keeps K := by
  induction rope generalizing text with
  | lit sval =>
    unfold rope_collect
    infer_instance
  | expr expr =>
    unfold rope_collect
    infer_instance
  | cat left right hleft hright =>
    unfold rope_collect
    infer_instance

instance (env : Env) (rope : RopeNode Node) : (eval_rope env rope).Keeps K := by unfold eval_rope; infer_instance

instance (env : Env) (span : Span) (subject : Option Value) (nodes : List Node) :
    (when_matches env span subject nodes).Keeps K := by
  induction nodes with
  | nil => exact .ret _
  | cons first rest ih =>
    unfold when_matches
    split <;> infer_instance

instance (env : Env) (span : Span) (subject : Option Value) (else_body : Option Node) (nodes : List Node) :
    (try_whens env span subject else_body nodes).Keeps K := by
  induction nodes with
  | nil =>
    unfold try_whens
    split <;> infer_instance
  | cons clause rest ih =>
    unfold try_whens
    split
    · rename_i h
      cases h
    · rename_i h
      cases h
      refine .seq inferInstance fun matched => ?_
      split <;> infer_instance
    · rename_i h
      cases h
      exact ih

instance (env : Env) (span : Span) (subject : Option Node) (whens : List Node) (else_body : Option Node) :
    (eval_case env span subject whens else_body).Keeps K := by
  unfold eval_case
  split <;> infer_instance

instance (binding_env : Env) (guard : Option Node) : (guard_allows binding_env guard).Keeps K := by
  unfold guard_allows
  split <;> infer_instance

instance (env binding_env : Env) (body : Option Node) : (run_in env binding_env body).Keeps K := by
  unfold run_in
  infer_instance

instance (env : Env) (span : Span) (subject : Value) (else_body : Option Node) (nodes : List Node) :
    (try_ins env span subject else_body nodes).Keeps K := by
  induction nodes with
  | nil =>
    unfold try_ins
    split <;> infer_instance
  | cons clause rest ih =>
    unfold try_ins
    split
    · rename_i h
      cases h
    · rename_i h
      cases h
      infer_instance
    · rename_i h
      cases h
      exact ih

instance (env : Env) (span : Span) (subject : Node) (ins : List Node) (else_body : Option Node) :
    (eval_patcase env span subject ins else_body).Keeps K := by
  unfold eval_patcase
  infer_instance

instance (env : Env) (name : String) (span : Span) : (call_self_method env name span).Keeps K := by
  unfold call_self_method
  repeat' first | infer_instance | split | refine .seq inferInstance fun _ => ?_

instance (env : Env) (span : Span) (name : String) : (eval_lvar env span name).Keeps K := by
  unfold eval_lvar
  refine .seq inferInstance fun _ => ?_
  split <;> infer_instance

instance (env : Env) (name : String) : (eval_ivar env name).Keeps K := by
  unfold eval_ivar
  repeat' first | infer_instance | split | refine .seq inferInstance fun _ => ?_

instance (env : Env) (span : Span) : (eval_child_status env span).Keeps K := by
  unfold eval_child_status
  repeat' first | infer_instance | split | refine .seq inferInstance fun _ => ?_

instance (env : Env) (span : Span) (name : String) : (eval_gvar env span name).Keeps K := by
  unfold eval_gvar
  infer_instance

instance (env : Env) (name : String) : (eval_cvar env name).Keeps K := by
  unfold eval_cvar
  refine .seq inferInstance fun _ => ?_
  split <;> infer_instance

instance (env : Env) (span : Span) (parent : Value) (name : String) : (const_missing env span parent name).Keeps K := by
  unfold const_missing
  split <;> infer_instance

instance (span : Span) (name : String) : (uninitialized_constant span name).Keeps K := by
  unfold uninitialized_constant
  infer_instance

instance (env : Env) (span : Span) (name : String) : (eval_const env span name).Keeps K := by
  unfold eval_const
  repeat' first | infer_instance | split | refine .seq inferInstance fun _ => ?_

instance (env : Env) (span : Span) (recv : Node) (name : String) : (eval_const_access env span recv name).Keeps K := by
  unfold eval_const_access
  repeat' first | infer_instance | split | refine .seq inferInstance fun _ => ?_

instance (span : Span) (pattern : String) (options : UInt32) : (eval_regexp span pattern options).Keeps K := by
  unfold eval_regexp
  repeat' first | infer_instance | split | refine .seq inferInstance fun _ => ?_

instance (env : Env) (node : Node) : (defined_simple_value env node).Keeps K := by
  unfold defined_simple_value
  repeat' first | infer_instance | split | refine .seq inferInstance fun _ => ?_

instance (env : Env) (recv : Value) (name : String) (site : Span) : (defined_method env recv name site).Keeps K := by
  unfold defined_method
  refine .seq inferInstance fun _ => ?_
  split <;> infer_instance

instance (env : Env) (node : Option Node) : (defined_expr env node).Keeps K := by
  unfold defined_expr
  repeat' first | infer_instance | split | refine .seq inferInstance fun _ => ?_

instance (env : Env) (expr : Option Node) : (eval_defined env expr).Keeps K := by unfold eval_defined; infer_instance

instance (env : Env) (taken : Bool → Bool) (cond : Node) (then_body else_body : Option Node) :
    (eval_if env taken cond then_body else_body).Keeps K := by
  unfold eval_if
  infer_instance

instance (env : Env) (value : Option Node) (wrap : Value → P Value) [∀ v, (wrap v).Keeps K] :
    (eval_jump env value wrap).Keeps K := by
  unfold eval_jump
  split <;> infer_instance

instance (env : Env) (beginning ending : Option Node) (exclusive : Bool) :
    (eval_range env beginning ending exclusive).Keeps K := by
  unfold eval_range
  repeat' first | infer_instance | split

instance (env : Env) (val : Value) (stmts : List (Option Node)) : (eval_stmts env val stmts).Keeps K := by
  induction stmts generalizing val with
  | nil => exact .ret _
  | cons first rest ih =>
    unfold eval_stmts
    infer_instance

instance (env : Env) (stmts : List (Option Node)) : (run_end_blocks env stmts).Keeps K := by
  induction stmts with
  | nil => exact .ret _
  | cons first rest ih =>
    unfold run_end_blocks
    infer_instance

instance (env : Env) (stmts : List Node) : (eval_body env stmts).Keeps K := by unfold eval_body; infer_instance

instance (fuel : Nat) (env : Env) (node : Node) : (eval_node_kind fuel env node).Keeps K := by
  unfold eval_node_kind
  split <;> infer_instance

instance (fuel : Nat) (env : Env) (node : Option Node) : (eval_node_body fuel env node).Keeps K := by
  unfold eval_node_body
  split <;> infer_instance

/-- What methods, blocks and built-ins keep, all functions of the evaluator keep. -/
theorem evaluator_keeps {builtins : Builtins} (fuel : Nat)
    (hmethod : ∀ recv method owner name args blk site,
      (call_method_value_body recv method owner name args blk site).Keeps K)
    (hblock : ∀ blk args call_site, (call_block_body blk args call_site).Keeps K)
    (hbuiltins : ∀ b, (builtins b).Keeps K) (c : Call) : (evaluator builtins fuel c).Keeps K := by
  cases c with
  | val_equal a b => exact inferInstanceAs ((val_equal_body a b).Keeps K)
  | eval_node env node => exact inferInstanceAs ((eval_node_body fuel env node).Keeps K)
  | assign_target env target val => exact inferInstanceAs ((assign_target_body env target val).Keeps K)
  | match_pattern env binding_env val pat =>
    exact inferInstanceAs ((match_pattern_body env binding_env val pat).Keeps K)
  | lookup_const_head env name => exact inferInstanceAs ((lookup_const_head_body fuel env name).Keeps K)
  | ruby_class_find_instance_method klass name => exact inferInstanceAs ((find_instance_body klass name).Keeps K)
  | ruby_class_find_super_method_inner klass after seen_after name =>
    exact inferInstanceAs ((find_super_body klass after seen_after name).Keeps K)
  | bind_pattern env pattern val => exact inferInstanceAs ((bind_pattern_body env pattern val).Keeps K)
  | call_method_value recv method owner name args blk site => exact hmethod recv method owner name args blk site
  | call_block blk args call_site => exact hblock blk args call_site
  | dispatch_method send => exact inferInstanceAs ((dispatch_method_body send).Keeps K)
  | builtin_kernel env name args blk site =>
    exact inferInstanceAs ((builtin_kernel_body fuel env name args blk site).Keeps K)
  | builtin b => exact hbuiltins b

end

end stoned
