import Stoned.Context

namespace stoned

open program

/-! The lookups and the dispatch of methods leave the evaluator where it is. -/

section
variable {K : Keep (state_ops.withCalls evaluator_calls) State} [Guard K]

instance (env : Option Env) (name : String) : (get_own env name).Keeps K := by unfold get_own; split <;> infer_instance

instance (env : Option Env) (name : String) : (get_method_from env name).Keeps K := by
  unfold get_method_from
  split <;> infer_instance

instance (klass : Ref) (name : String) : (ruby_class_find_instance_method klass name).Keeps K := Guard.call _

instance (name : String) (refs : List Ref) : (find_in_modules name refs).Keeps K := by
  induction refs with
  | nil => exact .ret _
  | cons first rest ih =>
    unfold find_in_modules
    refine .seq inferInstance fun _ => ?_
    split <;> infer_instance

instance (k : Ref) (name : String) : (find_instance_step k name).Keeps K := by
  unfold find_instance_step
  repeat' first | infer_instance | split | refine .seq inferInstance fun _ => ?_

instance (name : String) (refs : List Ref) : (find_instance_walk name refs).Keeps K := by
  induction refs with
  | nil => exact .ret _
  | cons first rest ih =>
    unfold find_instance_walk
    refine .seq inferInstance fun _ => ?_
    split <;> infer_instance

instance (klass : Ref) (name : String) : (find_instance_body klass name).Keeps K := by
  unfold find_instance_body
  infer_instance

instance (klass after : Ref) (seen_after : Bool) (name : String) :
    (ruby_class_find_super_method_inner klass after seen_after name).Keeps K := Guard.call _

instance (after : Ref) (name : String) (flag : Bool) (refs : List Ref) :
    (super_in_modules after name flag refs).Keeps K := by
  induction refs generalizing flag with
  | nil => exact .ret _
  | cons first rest ih =>
    unfold super_in_modules
    refine .seq inferInstance fun _ => ?_
    split <;> infer_instance

instance (k after : Ref) (seen_after : Bool) (name : String) : (find_super_step k after seen_after name).Keeps K := by
  unfold find_super_step
  repeat' first | infer_instance | split | refine .seq inferInstance fun _ => ?_

instance (after : Ref) (name : String) (flag : Bool) (refs : List Ref) :
    (find_super_walk after name flag refs).Keeps K := by
  induction refs generalizing flag with
  | nil => exact .ret _
  | cons first rest ih =>
    unfold find_super_walk
    refine .seq inferInstance fun _ => ?_
    split <;> infer_instance

instance (klass after : Ref) (seen_after : Bool) (name : String) :
    (find_super_body klass after seen_after name).Keeps K := by
  unfold find_super_body
  infer_instance

instance (start after : Ref) (name : String) : (ruby_class_find_super_method start after name).Keeps K := by
  unfold ruby_class_find_super_method
  infer_instance

instance (klass : Ref) (name : String) : (ruby_class_get_direct_class_method klass name).Keeps K := by
  unfold ruby_class_get_direct_class_method
  infer_instance

instance (name : String) (refs : List Ref) : (find_class_method_walk name refs).Keeps K := by
  induction refs with
  | nil => exact .ret _
  | cons first rest ih =>
    unfold find_class_method_walk
    repeat' first | infer_instance | split | refine .seq inferInstance fun _ => ?_

instance (klass : Ref) (name : String) : (ruby_class_find_class_method klass name).Keeps K := by
  unfold ruby_class_find_class_method
  infer_instance

instance (after : Ref) (name : String) (flag : Bool) (refs : List Ref) :
    (class_super_in_modules after name flag refs).Keeps K := by
  induction refs generalizing flag with
  | nil =>
    unfold class_super_in_modules
    infer_instance
  | cons first rest ih =>
    cases flag <;> (unfold class_super_in_modules; refine .seq inferInstance fun _ => ?_; split <;> infer_instance)

instance (after : Ref) (name : String) (flag : Bool) (refs : List Ref) :
    (find_class_super_walk after name flag refs).Keeps K := by
  induction refs generalizing flag with
  | nil => exact .ret _
  | cons first rest ih =>
    unfold find_class_super_walk
    repeat' first | infer_instance | split | refine .seq inferInstance fun _ => ?_

instance (start after : Ref) (name : String) : (ruby_class_find_class_super_method start after name).Keeps K := by
  unfold ruby_class_find_class_super_method
  infer_instance

instance (name : String) : (top_class name).Keeps K := by
  unfold top_class
  refine .seq inferInstance fun _ => .seq inferInstance fun _ => ?_
  split <;> infer_instance

instance (klass : Ref) (class_name : String) : (class_is_a_named_class klass class_name).Keeps K := by
  unfold class_is_a_named_class
  refine .seq inferInstance fun _ => ?_
  split <;> infer_instance

instance (v : Value) (class_name : String) : (value_is_a_named_class v class_name).Keeps K := by
  unfold value_is_a_named_class
  repeat' first | infer_instance | split | refine .seq inferInstance fun _ => ?_

instance (klass : Value) : (exception_is_a klass).Keeps K := by
  unfold exception_is_a
  refine .seq inferInstance fun _ => ?_
  split <;> infer_instance

instance (recv : Value) : (value_singleton_env recv).Keeps K := by unfold value_singleton_env; split <;> infer_instance

instance (recv : Value) (env : Env) : (set_singleton_env recv env).Keeps K := by
  unfold set_singleton_env
  split <;> infer_instance

instance (v : Value) : (value_class_name v).Keeps K := by
  unfold value_class_name
  repeat' first | infer_instance | split | refine .seq inferInstance fun _ => ?_

instance (v : Value) : (val_class_of v).Keeps K := by
  unfold val_class_of
  repeat' first | infer_instance | split | refine .seq inferInstance fun _ => ?_

instance (env : Env) (recv : Value) (owner : Option Ref) (visibility : MethodVisibility) (public_only : Bool)
    (explicit_receiver : Int) :
    (method_visibility_allows_call env recv owner visibility public_only explicit_receiver).Keeps K := by
  unfold method_visibility_allows_call
  repeat' first | infer_instance | split | refine .seq inferInstance fun _ => ?_

instance (name : String) (refs : List Ref) : (find_instance_alias_name name refs).Keeps K := by
  induction refs with
  | nil => exact .ret none
  | cons first rest ih =>
    unfold find_instance_alias_name
    refine .seq inferInstance fun _ => ?_
    dsimp only
    split
    · infer_instance
    · refine .seq inferInstance fun _ => ?_
      split <;> infer_instance

instance (recv method : Value) (owner : Option Ref) (name : String) (args : List Value) (blk : Option Value)
    (site : Option Span) :
    (enter_method recv method owner name args blk site).Keeps K := by
  unfold enter_method
  repeat' first | infer_instance | split | refine .seq inferInstance fun _ => ?_

instance (is_lambda : Bool) (params : List Node) (args : List Value) : (block_args is_lambda params args).Keeps K := by
  unfold block_args
  split <;> infer_instance

instance (params : List Node) (closure : Env) (is_lambda : Bool) (args : List Value) (call_site : Option Span) :
    (enter_block params closure is_lambda args call_site).Keeps K := by
  unfold enter_block
  refine .seq inferInstance fun _ => .seq inferInstance fun _ => ?_
  split <;> infer_instance

instance (is_lambda is_proc_object : Bool) (call_site : Option Span) (result : Value) :
    (block_result is_lambda is_proc_object call_site result).Keeps K := by
  unfold block_result
  split <;> infer_instance

instance (send : Send) (method : Value) (owner : Option Ref) : (send_to send method owner).Keeps K := by
  unfold send_to
  infer_instance

instance (send : Send) (method : Value) (owner : Option Ref) : (allows_call send method owner).Keeps K := by
  unfold allows_call
  infer_instance

instance (recv : Value) (hook : String) : (find_hook recv hook).Keeps K := by
  unfold find_hook
  repeat' first | infer_instance | split | refine .seq inferInstance fun _ => ?_

instance (send : Send) : (dispatch_method_missing send).Keeps K := by
  unfold dispatch_method_missing
  refine .seq inferInstance fun _ => ?_
  split <;> infer_instance

instance (send : Send) (mname : String) : (public_send_refusal send mname).Keeps K := by
  unfold public_send_refusal
  refine .seq inferInstance fun _ => ?_
  split <;> infer_instance

instance (send : Send) (public_only : Bool) : (dispatch_dynamic_send send public_only).Keeps K := by
  unfold dispatch_dynamic_send
  repeat' first | infer_instance | split

instance (env : Env) (name : String) (args : List Value) (blk : Option Value) (site : Option Span) :
    (builtin_kernel env name args blk site).Keeps K := Guard.call _

instance (stage : P (Option Value)) (rest : P Value) [stage.Keeps K] [rest.Keeps K] : (or_else stage rest).Keeps K := by
  unfold or_else
  refine .seq inferInstance fun _ => ?_
  split <;> infer_instance

instance (send : Send) : (dispatch_singleton send).Keeps K := by
  unfold dispatch_singleton
  repeat' first | infer_instance | split | refine .seq inferInstance fun _ => ?_

instance (send : Send) (klass : Ref) : (dispatch_alias send klass).Keeps K := by
  unfold dispatch_alias
  refine .seq inferInstance fun _ => .seq inferInstance fun _ => ?_
  split <;> infer_instance

instance (send : Send) (klass : Ref) : (dispatch_user_method send klass).Keeps K := by
  unfold dispatch_user_method
  repeat' first | infer_instance | split | refine .seq inferInstance fun _ => ?_

instance (send : Send) : (dispatch_object_first send).Keeps K := by
  unfold dispatch_object_first
  repeat' first | infer_instance | split | refine .seq inferInstance fun _ => ?_

instance (send : Send) : (dispatch_common send).Keeps K := by
  unfold dispatch_common
  repeat' first | infer_instance | split | refine .seq inferInstance fun _ => ?_

instance (send : Send) : (dispatch_reopened send).Keeps K := by
  unfold dispatch_reopened
  repeat' first | infer_instance | split | refine .seq inferInstance fun _ => ?_

instance (send : Send) : (dispatch_primitive_alias send).Keeps K := by
  unfold dispatch_primitive_alias
  repeat' first | infer_instance | split | refine .seq inferInstance fun _ => ?_

instance (send : Send) : (dispatch_nil_kernel send).Keeps K := by unfold dispatch_nil_kernel; split <;> infer_instance

instance (send : Send) : (dispatch_value_class send).Keeps K := by
  unfold dispatch_value_class
  repeat' first | infer_instance | split | refine .seq inferInstance fun _ => ?_

instance (send : Send) (method : Value) : (refusal send method).Keeps K := by unfold refusal; infer_instance

instance (send : Send) : (dispatch_class send).Keeps K := by
  unfold dispatch_class
  repeat' first | infer_instance | split | refine .seq inferInstance fun _ => ?_

instance (send : Send) (refs : List Ref) : (dispatch_object_classes send refs).Keeps K := by
  induction refs with
  | nil => exact .ret _
  | cons first rest ih =>
    unfold dispatch_object_classes
    refine .seq inferInstance fun _ => ?_
    split <;> infer_instance

instance (send : Send) : (dispatch_object send).Keeps K := by
  unfold dispatch_object
  split
  · refine .seq inferInstance fun _ => ?_
    split
    · infer_instance
    · refine .seq inferInstance fun ev => ?_
      dsimp only
      split <;> refine .seq inferInstance fun _ => ?_ <;> split
      all_goals repeat' first | infer_instance | split | refine .seq inferInstance fun _ => ?_
  · infer_instance

instance (send : Send) : (dispatch_method_body send).Keeps K := by unfold dispatch_method_body; infer_instance

instance (name : String) (refs : List Ref) : (find_in_class_envs name refs).Keeps K := by
  induction refs with
  | nil => exact .ret _
  | cons first rest ih =>
    unfold find_in_class_envs
    repeat' first | infer_instance | split | refine .seq inferInstance fun _ => ?_

instance (env : Option Env) (name : String) : (lookup_const_head env name).Keeps K := Guard.call _

instance (name : String) (n : Nat) (ref : Ref) : (lookup_in_scopes name n ref).Keeps K := by
  induction n generalizing ref with
  | zero => exact inferInstanceAs (Program.Keeps K .halt)
  | succ fuel ih =>
    unfold lookup_in_scopes
    repeat' first | infer_instance | split | refine .seq inferInstance fun _ => ?_

instance (env : Option Env) : (current_class env).Keeps K := by
  unfold current_class
  repeat' first | infer_instance | split | refine .seq inferInstance fun _ => ?_

instance (env : Option Env) (name : String) : (lookup_qualified env name).Keeps K := by
  unfold lookup_qualified
  refine .seq inferInstance fun _ => .seq inferInstance fun _ => .seq inferInstance fun _ => ?_
  split
  · infer_instance
  · refine .seq inferInstance fun _ => ?_
    dsimp only
    split <;> infer_instance

instance (fuel : Nat) (env : Option Env) (name : String) : (lookup_const_head_body fuel env name).Keeps K := by
  unfold lookup_const_head_body
  refine .seq inferInstance fun scope => ?_
  dsimp only
  split <;> refine .seq inferInstance fun _ => ?_ <;> split <;> repeat' first | infer_instance | split | refine .seq inferInstance fun _ => ?_

instance (current : Value) (part : String) : (lookup_const_on_class current part).Keeps K := by
  unfold lookup_const_on_class
  repeat' first | infer_instance | split | refine .seq inferInstance fun _ => ?_

instance (val : Value) (names : List String) : (lookup_const_parts val names).Keeps K := by
  induction names generalizing val with
  | nil => exact .ret _
  | cons first rest ih =>
    unfold lookup_const_parts
    repeat' first | infer_instance | split | refine .seq inferInstance fun _ => ?_

instance (env : Env) (name : String) : (lookup_const_path env name).Keeps K := by
  unfold lookup_const_path
  repeat' first | infer_instance | split | refine .seq inferInstance fun _ => ?_

instance (env : Env) (name : String) (val : Value) : (assign_lvar env name val).Keeps K := by
  unfold assign_lvar
  infer_instance

instance (env : Env) : (self_of env).Keeps K := by unfold self_of; infer_instance
instance (self : Value) : (class_of_self self).Keeps K := by unfold class_of_self; split <;> infer_instance

instance (target : Node) (val : Value) : (validate_special_global_assignment target val).Keeps K := by
  unfold validate_special_global_assignment
  repeat' first | infer_instance | split | refine .seq inferInstance fun _ => ?_

instance (env : Env) (key : String) : (find_cvar env key).Keeps K := by
  unfold find_cvar
  repeat' first | infer_instance | split | refine .seq inferInstance fun _ => ?_

instance (env : Env) (span : Span) (name : String) (val : Value) : (assign_ivar env span name val).Keeps K := by
  unfold assign_ivar
  repeat' first | infer_instance | split | refine .seq inferInstance fun _ => ?_

instance (env : Env) (name : String) (val : Value) : (assign_cvar env name val).Keeps K := by
  unfold assign_cvar
  repeat' first | infer_instance | split | refine .seq inferInstance fun _ => ?_

instance (name : String) (val : Value) : (name_anonymous_class name val).Keeps K := by
  unfold name_anonymous_class
  split <;> infer_instance

instance (env : Env) : (open_class env).Keeps K := by
  unfold open_class
  refine .seq inferInstance fun _ => ?_
  split <;> infer_instance

instance (env : Env) (name : String) (val : Value) : (assign_const env name val).Keeps K := by
  unfold assign_const
  repeat' first | infer_instance | split | refine .seq inferInstance fun _ => ?_

instance (env : Env) (vals : List Value) (nodes : List Node) : (eval_subscripts env vals nodes).Keeps K := by
  induction nodes generalizing vals with
  | nil => exact .ret _
  | cons first rest ih =>
    unfold eval_subscripts
    infer_instance

instance (env : Env) (target : Node) (span : Span) (recv : Option Node) (method : String) (args : List Node)
    (val : Value) :
    (assign_call env target span recv method args val).Keeps K := by
  unfold assign_call
  repeat' first | infer_instance | split | refine .seq inferInstance fun _ => ?_

instance (env : Env) (target : Node) (val : Value) : (assign_target_body env target val).Keeps K := by
  unfold assign_target_body
  split <;> infer_instance

instance (signal : Value) : (no_match signal).Keeps K := by unfold no_match; infer_instance

instance (env : Env) (recv : Value) (name : String) (arg : Value) (site : Option Span) :
    (matches_by env recv name arg site).Keeps K := by
  unfold matches_by
  infer_instance

instance (array : Ref) (i : Nat) : (elem_of array i).Keeps K := by unfold elem_of; infer_instance

instance (env binding_env : Env) (array : Ref) (n : Nat) (nodes : List Node) :
    (match_elements env binding_env array n nodes).Keeps K := by
  induction nodes generalizing n with
  | nil => exact .ret _
  | cons first rest ih =>
    unfold match_elements
    infer_instance

instance (binding_env : Env) (name : Option String) (array : Ref) (start stop : Nat) :
    (bind_stretch binding_env name array start stop).Keeps K := by
  unfold bind_stretch
  split <;> infer_instance

instance (env : Env) (entries : List (String × Value)) : (define_all env entries).Keeps K := by
  induction entries with
  | nil => exact .ret _
  | cons first rest ih =>
    unfold define_all
    infer_instance

instance (env binding_env : Env) (array : Ref) (elems : List Node) (arr_len : Nat)
    (rest_name pre_rest_name : Option String) (starts : List Nat) :
    (find_pattern env binding_env array elems arr_len rest_name pre_rest_name starts).Keeps K := by
  induction starts with
  | nil => exact .ret _
  | cons first rest ih =>
    unfold find_pattern
    refine .seq inferInstance fun _ => .seq inferInstance fun _ => ?_
    split <;> infer_instance

instance (env binding_env : Env) (array : Ref) (elems : List Node) (has_rest has_pre_rest : Bool)
    (rest_name pre_rest_name : Option String) :
    (match_array env binding_env array elems has_rest has_pre_rest rest_name pre_rest_name).Keeps K := by
  unfold match_array
  infer_instance

instance (env binding_env : Env) (val : Value) (span : Span) (elems : List Node) (has_rest has_pre_rest : Bool)
    (rest_name pre_rest_name : Option String) :
    (match_array_pattern env binding_env val span elems has_rest has_pre_rest rest_name pre_rest_name).Keeps K := by
  unfold match_array_pattern
  dsimp only
  split <;> refine .seq inferInstance fun _ => ?_ <;> split <;> infer_instance

instance (env binding_env : Env) (hash : Ref) (pairs : List (Node × Node)) :
    (match_pairs env binding_env hash pairs).Keeps K := by
  induction pairs with
  | nil => exact .ret _
  | cons first rest ih =>
    unfold match_pairs
    refine .seq inferInstance fun _ => ?_
    split <;> infer_instance

instance (env binding_env : Env) (val : Value) (span : Span) (elems : List Node) (has_rest : Bool)
    (rest_name : Option String) :
    (match_hash_pattern env binding_env val span elems has_rest rest_name).Keeps K := by
  unfold match_hash_pattern
  dsimp only
  split <;> refine .seq inferInstance fun _ => ?_ <;>  repeat' first | infer_instance | split | refine .seq inferInstance fun _ => ?_

instance (env binding_env : Env) (val : Value) (pat : Option Node) :
    (match_pattern_body env binding_env val pat).Keeps K := by
  unfold match_pattern_body
  repeat' first | infer_instance | split | refine .seq inferInstance fun _ => ?_

instance (env : Env) (nodes : List Node) : (class_matches env nodes).Keeps K := by
  induction nodes with
  | nil => exact .ret _
  | cons first rest ih =>
    unfold class_matches
    split <;> infer_instance

instance (env : Env) (exception_var : Option String) (rescued_exc : Value) :
    (enter_rescue env exception_var rescued_exc).Keeps K := by
  unfold enter_rescue
  split <;> infer_instance

instance (env : Env) (exception_var : Option String) (body : Option Node) :
    (run_rescue env exception_var body).Keeps K := by
  unfold run_rescue
  repeat' first | infer_instance | split | refine .seq inferInstance fun _ => ?_

instance (env : Env) (nodes : List Node) : (try_rescues env nodes).Keeps K := by
  induction nodes with
  | nil => exact .ret none
  | cons clause rest ih =>
    unfold try_rescues
    split
    · rename_i h
      cases h
    · rename_i h
      cases h
      infer_instance
    · rename_i h
      cases h
      exact ih

instance (env : Env) (body : Option Node) (rescues : List Node) (n : Nat) (flag : Bool) :
    (attempts env body rescues n flag).Keeps K := by
  induction n generalizing flag with
  | zero => exact inferInstanceAs (Program.Keeps K .halt)
  | succ fuel ih =>
    unfold attempts
    repeat' first | infer_instance | split | refine .seq inferInstance fun _ => ?_

instance (saved : Eval) : Quiet (restore_exception saved) where
  context _ := rfl

instance (env : Env) (ensure_body : Node) (result : Value) : (run_ensure env ensure_body result).Keeps K := by
  unfold run_ensure
  infer_instance

instance (fuel : Nat) (env : Env) (body : Option Node) (rescues : List Node) (else_body ensure_body : Option Node) :
    (eval_begin fuel env body rescues else_body ensure_body).Keeps K := by
  unfold eval_begin
  split <;> infer_instance

instance (until_ : Bool) (env : Env) (cond : Node) (rest : P Value) [rest.Keeps K] :
    (loop_test until_ env cond rest).Keeps K := by
  unfold loop_test
  infer_instance

instance (until_ : Bool) (env : Env) (cond : Node) (body : Option Node) (post_test : Bool) (n : Nat) :
    (eval_while until_ env cond body post_test n).Keeps K := by
  induction n with
  | zero => exact inferInstanceAs (Program.Keeps K .halt)
  | succ fuel ih =>
    unfold eval_while
    repeat' first | infer_instance | split | refine .seq inferInstance fun _ => ?_

instance (env : Env) (target : Node) (body : Option Node) (item : Value) : (for_turn env target body item).Keeps K := by
  unfold for_turn
  repeat' first | infer_instance | split | refine .seq inferInstance fun _ => ?_

instance (env : Env) (target : Node) (body : Option Node) (array : Ref) (n : Nat) (n' : Nat) (val : Value) :
    (for_array env target body array n n' val).Keeps K := by
  induction n generalizing n' val with
  | zero => exact inferInstanceAs (Program.Keeps K .halt)
  | succ fuel ih =>
    unfold for_array
    repeat' first | infer_instance | split | refine .seq inferInstance fun _ => ?_

instance (env : Env) (target : Node) (body : Option Node) (hi : Int64) (exclusive : Bool) (n : Nat) (i : Int64)
    (val : Value) :
    (for_range env target body hi exclusive n i val).Keeps K := by
  induction n generalizing i val with
  | zero => exact inferInstanceAs (Program.Keeps K .halt)
  | succ fuel ih =>
    unfold for_range
    repeat' first | infer_instance | split | refine .seq inferInstance fun _ => ?_

instance (fuel : Nat) (env : Env) (span : Span) (target iterable : Node) (body : Option Node) :
    (eval_for fuel env span target iterable body).Keeps K := by
  unfold eval_for
  repeat' first | infer_instance | split | refine .seq inferInstance fun _ => ?_

instance (blk : Value) (site : Option Span) (n : Nat) : (kernel_loop blk site n).Keeps K := by
  induction n with
  | zero => exact inferInstanceAs (Program.Keeps K .halt)
  | succ fuel ih =>
    unfold kernel_loop
    refine .seq inferInstance fun _ => ?_
    split <;> infer_instance

instance (args : List Value) (blk : Option Value) (site : Option Span) : (kernel_catch args blk site).Keeps K := by
  unfold kernel_catch
  repeat' first | infer_instance | split | refine .seq inferInstance fun _ => ?_

instance (args : List Value) : (kernel_throw args).Keeps K := by unfold kernel_throw; infer_instance

instance (env : Env) (klass : Ref) (args : List Value) (site : Option Span) :
    (raise_class env klass args site).Keeps K := by
  unfold raise_class
  split <;> infer_instance

instance (env : Env) (args : List Value) (site : Option Span) : (kernel_raise env args site).Keeps K := by
  unfold kernel_raise
  repeat' first | infer_instance | split

instance (is_lambda : Bool) (blk : Option Value) (site : Option Span) : (kernel_proc is_lambda blk site).Keeps K := by
  unfold kernel_proc
  split <;> infer_instance

instance (mod : Ref) (hook : Option Value) (name : String) (base : Value) (site : Option Span) :
    (call_module_hook mod hook name base site).Keeps K := by
  unfold call_module_hook
  split <;> infer_instance

instance (base : Ref) (mod : Ref) (site : Option Span) : (define_singleton_instance base mod site).Keeps K := by
  unfold define_singleton_instance
  refine .seq inferInstance fun _ => ?_
  split <;> infer_instance

instance (base : Ref) (site : Option Span) (vals : List Value) : (include_modules base site vals).Keeps K := by
  induction vals with
  | nil => exact .ret Value.nil
  | cons mod rest ih =>
    unfold include_modules
    split
    · infer_instance
    · rename_i h
      cases h
      refine .seq inferInstance fun _ => .ite (.seq inferInstance fun _ => ?_) inferInstance
      infer_instance
    · infer_instance

instance (env : Env) (args : List Value) (site : Option Span) : (kernel_include env args site).Keeps K := by
  unfold kernel_include
  repeat' first | infer_instance | split | refine .seq inferInstance fun _ => ?_

instance (base : Ref) (site : Option Span) (vals : List Value) : (prepend_modules base site vals).Keeps K := by
  induction vals with
  | nil => exact .ret Value.nil
  | cons mod rest ih =>
    unfold prepend_modules
    split
    · infer_instance
    · rename_i h
      cases h
      refine .seq inferInstance fun _ => .ite (.seq inferInstance fun _ => ?_) inferInstance
      infer_instance
    · infer_instance

instance (env : Env) (args : List Value) (site : Option Span) : (kernel_prepend env args site).Keeps K := by
  unfold kernel_prepend
  refine .seq inferInstance fun _ => ?_
  split <;> infer_instance

instance (fuel : Nat) (env : Env) (name : String) (args : List Value) (blk : Option Value) (site : Option Span) :
    (builtin_kernel_body fuel env name args blk site).Keeps K := by
  unfold builtin_kernel_body
  repeat' first | infer_instance | split

instance (env : Env) (span : Span) (splat : Value) : (splat_elems env span splat).Keeps K := by
  unfold splat_elems
  repeat' first | infer_instance | split | refine .seq inferInstance fun _ => ?_

instance (array : Ref) (vals : List Value) : (val_array_push_all array vals).Keeps K := by
  induction vals with
  | nil => exact .ret _
  | cons first rest ih =>
    unfold val_array_push_all
    infer_instance

instance (env : Env) (arr : Ref) (nodes : List Node) : (eval_elements env arr nodes).Keeps K := by
  induction nodes with
  | nil => exact .ret _
  | cons first rest ih =>
    unfold eval_elements
    split <;> infer_instance

instance (env : Env) (elements : List Node) : (eval_array env elements).Keeps K := by
  unfold eval_array
  refine .seq inferInstance fun _ => ?_
  split <;> infer_instance

instance (env : Env) (hash : Ref) (nodes : List Node) : (eval_pairs env hash nodes).Keeps K := by
  induction nodes with
  | nil => exact .ret (Value.hash hash)
  | cons pair rest ih =>
    unfold eval_pairs
    split
    · infer_instance
    · rename_i h
      cases h
      refine .seq inferInstance fun splat => .seq inferInstance fun _ => .ite inferInstance ?_
      dsimp only
      split <;> infer_instance
    · rename_i h
      cases h
      infer_instance
    · rename_i h
      cases h
      exact ih

instance (env : Env) (pairs : List Node) : (eval_hash env pairs).Keeps K := by unfold eval_hash; infer_instance

instance (acc : Arguments) (val : Value) : (merge_keywords acc val).Keeps K := by
  unfold merge_keywords
  repeat' first | infer_instance | split

instance (env : Env) (acc : Arguments) (arg : Node) : (collect_argument env acc arg).Keeps K := by
  unfold collect_argument
  repeat' first | infer_instance | split | refine .seq inferInstance fun _ => ?_

instance (env : Env) (acc : Arguments) (nodes : List Node) : (collect_arguments env acc nodes).Keeps K := by
  induction nodes generalizing acc with
  | nil => exact .ret _
  | cons first rest ih =>
    unfold collect_arguments
    repeat' first | infer_instance | split | refine .seq inferInstance fun _ => ?_

end

end stoned
