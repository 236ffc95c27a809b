import Stoned.Classes

namespace stoned

open program

/-! Running methods and blocks (eval_dispatch.c, eval_support.c). -/

def eval_push_frame (site : Option Span) (label : String) : P Unit :=
  modify fun ev =>
    if ev.frames.length < EVAL_MAX_DEPTH then
      { ev with frames := {
          line := site.elim 0 Span.line, col := site.elim 0 Span.col, label } :: ev.frames }
    else ev

def eval_pop_frame : P Unit := modify fun ev => { ev with frames := ev.frames.tail }

def push_active_def (env : Env) : P Unit :=
  modify fun ev =>
    if ev.active_defs.length < EVAL_MAX_DEPTH then { ev with active_defs := env :: ev.active_defs } else ev

def pop_active_def : P Unit := modify fun ev => { ev with active_defs := ev.active_defs.tail }

/-- The parameters and body of a method: of its def, or of the block it was
defined from. -/
def method_code : Node → List Node × Option Node × Bool
  | .block _ params body => (params, body, true)
  | .def_ _ _ _ params body => (params, body, false)
  | _ => ([], none, false)

/-- Whether a number of positional arguments suits a parameter list. -/
def arity_allows (params : List Node) (argc : Nat) : Bool :=
  count_required_params params ≤ argc && (has_splat_param params || argc ≤ count_total_params params)

def enter_body (frame : Env) (name : String) (site : Option Span) : P Unit := do
  modify fun ev => { ev with call_depth := ev.call_depth + 1 }
  push_active_def frame
  eval_push_frame site name

def leave_body : P Unit := do
  eval_pop_frame
  pop_active_def
  modify fun ev => { ev with call_depth := ev.call_depth - 1 }

/-- Runs a body in its frame. -/
def run_method_body (frame : Env) (name : String) (body : Option Node) (site : Option Span) : P Value := do
  enter_body frame name site
  let result ← eval_node frame body
  leave_body
  return result

/-- The value of a `return` aimed at a frame; any other result as it is. -/
def caught_return (frame : Env) : Value → Value
  | .ret wrapped target_env => if target_env = some frame then wrapped else .ret wrapped target_env
  | v => v

/-- Makes a method's or block's own file the current one, if it is known. -/
def use_file (def_file : Option String) : P Unit :=
  if def_file.isSome then modify fun ev => { ev with current_file := def_file } else return ()

/-- The class a method's frame names as its own: where it was found, or else
that of the receiver. -/
def owner_value (ev : Eval) (recv : Value) : Option Ref → Value
  | some owner => .klass owner
  | none =>
    match recv with
    | .object o => (ev.object o).klass
    | _ => .nil

/-- The frame of a method with its parameters bound, or nothing when an
exception was raised. -/
def enter_method (recv method : Value) (owner : Option Ref) (name : String) (args : List Value)
    (blk : Option Value) (site : Option Span) : P (Option Env) := do
  match method with
  | .method def_node closure _ _ =>
    let (params, _, is_block_node) := method_code def_node
    if !arity_allows params (extract_kwargs params args).2.length then
      let _ ← eval_raise_class site "ArgumentError" "wrong number of arguments"
      return none
    else
      let method_env ← env_new (some closure) (!is_block_node)
      env_define method_env "self" recv
      env_define method_env "__method__" (.symbol name)
      env_define method_env "__class__" (owner_value (← get) recv owner)
      if blk.isSome then set_block_arg method_env blk
      bind_params method_env params args
      if (← get).exception_class.isSome then return none else return some method_env
  -- the source reads the parts of a method out of whatever it is given
  | _ => .halt

/-- The result of a call whose body ended in a value: a `break` out of the
call's own block ends the call. -/
def method_result (has_block : Bool) (frame : Env) : Value → Value
  | .brk wrapped => if has_block then wrapped else .brk wrapped
  | v => caught_return frame v

def call_method_value_body (recv method : Value) (owner : Option Ref) (name : String)
    (args : List Value) (blk : Option Value) (site : Option Span) : P Value := do
  match ← enter_method recv method owner name args blk site with
  | none => return .exception
  | some method_env =>
    let saved_file := (← get).current_file
    match method with
    | .method def_node _ _ def_file =>
      use_file def_file
      let result ← run_method_body method_env name (method_code def_node).2.1 site
      modify fun ev => { ev with current_file := saved_file }
      return method_result blk.isSome method_env result
    | _ => .halt

def eval_def_target_active (ev : Eval) : Option Env → Bool
  | none => false
  | some target => ev.active_defs.contains target

/-- The arguments a block binds: one of several parameters takes a lone array
apart. -/
def block_args (is_lambda : Bool) (params : List Node) (args : List Value) : P (List Value) := do
  match args with
  | [.array a] =>
    if !is_lambda && 1 < count_bindable_params params then return ((← get).elems a).take 64
    else return args
  | _ => return args

/-- The frame of a block with its parameters bound, or nothing when an
exception was raised. -/
def enter_block (params : List Node) (closure : Env) (is_lambda : Bool) (args : List Value)
    (call_site : Option Span) : P (Option Env) := do
  let frame ← env_new (some closure) false
  match ← env_get closure "self" with
  | some closure_self => env_define frame "self" closure_self
  | none => pure ()
  let bound_args ← block_args is_lambda params args
  if is_lambda && !arity_allows params (extract_kwargs params bound_args).2.length then
    let _ ← eval_raise_class call_site "ArgumentError" "wrong number of arguments"
    return none
  else
    bind_params frame params bound_args
    if (← get).exception_class.isSome then return none else return some frame

/-- What a block's call makes of its body's result. -/
def block_result (is_lambda is_proc_object : Bool) (call_site : Option Span) (result : Value) : P Value := do
  match result with
  | .ret wrapped target_env =>
    if is_lambda then return wrapped
    else if is_proc_object && !eval_def_target_active (← get) target_env then
      eval_raise_class call_site "LocalJumpError" "unexpected return"
    else return .ret wrapped target_env
  | .brk wrapped =>
    if is_lambda then return wrapped
    else if is_proc_object then
      eval_raise_class call_site "LocalJumpError" "break from proc-closure"
    else return .brk wrapped
  | .next wrapped => return wrapped
  | v => return v

def call_block_body (blk : Value) (args : List Value) (call_site : Option Span) : P Value := do
  match blk with
  | .block (.block _ params body) closure is_lambda is_proc_object def_file =>
    let saved_file := (← get).current_file
    use_file def_file
    match ← enter_block params closure is_lambda args call_site with
    | none => return .exception
    | some frame =>
      eval_push_frame call_site "block"
      let result ← eval_node frame body
      eval_pop_frame
      modify fun ev => { ev with current_file := saved_file }
      block_result is_lambda is_proc_object call_site result
  | .block .. => .halt
  | _ => eval_raise_class call_site "LocalJumpError" "no block given"

end stoned
