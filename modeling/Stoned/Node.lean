import Stoned.Cases
import Stoned.Loops

namespace stoned

open program

/-! eval_node (eval.c). -/

/-- An instance method of self under a bare name that is no variable. -/
def call_self_method (env : Env) (name : String) (span : Span) : P Value := do
  let self ← self_of env
  match self with
  | .object o =>
    match (← get).class_of_object o with
    | none => return .nil
    | some k =>
      match ← ruby_class_find_instance_method k name with
      | some (method, owner) => call_method_value self method owner name [] none (some span)
      | none => return .nil
  | _ => return .nil

/-- A bare name the semantic pass took for a local variable. -/
def eval_lvar (env : Env) (span : Span) (name : String) : P Value := do
  match ← env_get env name with
  | none => call_self_method env name span
  | some (.method def_node closure visibility def_file) =>
    let self ← self_of env
    call_method_value self (.method def_node closure visibility def_file) none name [] none (some span)
  | some v => return v

def eval_ivar (env : Env) (name : String) : P Value := do
  match ← env_get env "self" with
  | some (.object o) => return (← val_object_get_ivar (.object o) name).getD .nil
  | some (.klass k) =>
    match ((← get).klass k).class_env with
    | some class_env => return (← env_get class_env ("@" ++ name)).getD .nil
    | none => return (← global_get name).getD .nil
  | _ => return (← global_get name).getD .nil

/-- `$?`: a new Process::Status of the last child's exit code, nil where it
cannot be made. -/
def eval_child_status (env : Env) (span : Span) : P Value := do
  let code := (← global_get "__child_exit__").getD (.int 0)
  match ← top_class "Process" with
  | none => return .nil
  | some process =>
    match ((← get).klass process).class_env with
    | none => return .nil
    | some class_env =>
      match ← env_get class_env "Status" with
      | some (.klass status_class) =>
        let ps ← dispatch_method {
          env, recv := .klass status_class, name := "new", args := [code], site := some span }
        if val_is_signal ps then
          if ps.kind = .exception then slip
          return .nil
        else return ps
      | _ => return .nil

def eval_gvar (env : Env) (span : Span) (name : String) : P Value := do
  if name = "?" then eval_child_status env span else return (← global_get name).getD .nil

def eval_cvar (env : Env) (name : String) : P Value := do
  match ← find_cvar env (cvar_key name) with
  | some (_, v) => return v
  | none => return .nil

/-- What the hook `const_missing` makes of a name. A signal is dropped. -/
def const_missing (env : Env) (span : Span) (parent : Value) (name : String) : P (Option Value) := do
  match parent with
  | .klass k =>
    let r ← dispatch_method {
      env, recv := .klass k, name := "const_missing", args := [.symbol name], site := some span }
    if val_is_signal r then
      if r.kind = .exception then slip
      eval_clear_exception
      return none
    else return some r
  | _ => return none

def uninitialized_constant (span : Span) (name : String) : P Value :=
  eval_raise_class (some span) "NameError" ("uninitialized constant '" ++ name ++ "'")

def eval_const (env : Env) (span : Span) (name : String) : P Value := do
  match ← lookup_const_path env name with
  | .nil =>
    match split_const_path name with
    | (some parent_name, leaf_name) =>
      match ← const_missing env span (← lookup_const_path env parent_name) leaf_name with
      | some r => return r
      | none => uninitialized_constant span name
    | (none, _) => uninitialized_constant span name
  | v => return v

def eval_const_access (env : Env) (span : Span) (recv : Node) (name : String) : P Value := do
  let recv ← eval_node env (some recv)
  check recv do
    match ← lookup_const_on_class recv name with
    | .nil =>
      match ← const_missing env span recv name with
      | some r => return r
      | none => uninitialized_constant span name
    | v => return v

def eval_regexp (span : Span) (pattern : String) (options : UInt32) : P Value := do
  match ← top_class "Regexp" with
  | none => eval_raise_class (some span) "NameError" "uninitialized constant Regexp"
  | some regexp_class =>
    match ← regex_compile pattern options with
    | some message =>
      eval_raise_class (some span) "RegexpError" (if message = "" then "regexp compile failed" else message)
    | none =>
      let obj ← val_object (.klass regexp_class)
      match obj with
      | .object o =>
        modify fun ev => { ev with objects := ev.objects.modify o fun object =>
          { object with native := some (.regex pattern options) } }
      | _ => pure ()
      val_object_set_ivar obj "source" (val_string (c_string pattern))
      val_object_set_ivar obj "__options__" (.int (.ofNat options.toNat))
      return obj

/-- The value of an expression simple enough to look at without running code. -/
def defined_simple_value (env : Env) : Node → P (Option Value)
  | .nil _ => return some .nil
  | .true _ => return some (.bool true)
  | .false _ => return some (.bool false)
  | .self _ => env_get env "self"
  | .int _ ival => return some (.int ival)
  | .float _ fval => return some (.float fval)
  | .string _ sval => return some (val_string sval)
  | .symbol _ sval => return some (.symbol sval)
  | .lvar _ name => env_get env name
  | .ivar _ name => do
    match ← env_get env "self" with
    | some (.object o) => val_object_get_ivar (.object o) name
    | _ => global_get name
  | .gvar _ name => global_get name
  | .cvar _ name => return (← find_cvar env (cvar_key name)).map Prod.snd
  | .const _ name => do
    match ← lookup_const_path env name with
    | .nil => return none
    | v => return some v
  | _ => return none

def defined_method (env : Env) (recv : Value) (name : String) (site : Span) : P Bool := do
  let result ← dispatch_method {
    env, recv, name := "respond_to?", args := [.symbol name, .bool true], site := some site }
  match result with
  | .exception =>
    slip
    eval_clear_exception
    return false
  | .bool bval => return bval
  | _ => return false

def when_some (found : Option Value) (text : String) : Option String := found.map fun _ => text

/-- What `defined?` says about an expression. -/
def defined_expr (env : Env) (node : Option Node) : P (Option String) := do
  match node with
  | none => return none
  | some node =>
    let method_or_none (recv : Value) (name : String) : P (Option String) := do
      if ← defined_method env recv name node.span then return some "method" else return none
    match node with
    | .lvar _ name =>
      match ← env_get env name with
      | some _ => return some "local-variable"
      | none => method_or_none (← self_of env) name
    | .ivar .. => return when_some (← defined_simple_value env node) "instance-variable"
    | .cvar .. => return when_some (← defined_simple_value env node) "class variable"
    | .gvar .. => return when_some (← defined_simple_value env node) "global-variable"
    | .const .. => return when_some (← defined_simple_value env node) "constant"
    | .self _ => return some "self"
    | .assign .. | .op_assign .. => return some "assignment"
    | .nil _ => return some "nil"
    | .true _ => return some "true"
    | .false _ => return some "false"
    | .call _ none method .. => method_or_none (← self_of env) method
    | .call _ (some recv) method .. =>
      match ← defined_simple_value env recv with
      | some recv => method_or_none recv method
      | none => return none
    | _ => return some "expression"

def eval_defined (env : Env) (expr : Option Node) : P Value := do
  return (← defined_expr env expr).elim .nil val_string

def eval_if (env : Env) (taken : Bool → Bool) (cond : Node) (then_body else_body : Option Node) : P Value := do
  let cond ← eval_node env (some cond)
  check cond do
    if taken (val_truthy cond) then eval_node env then_body
    else if else_body.isSome then eval_node env else_body
    else return .nil

/-- The value of `return`, `break` or `next`, wrapped in its signal. -/
def eval_jump (env : Env) (value : Option Node) (wrap : Value → P Value) : P Value := do
  match value with
  | some value =>
    let v ← eval_node env (some value)
    check v (wrap v)
  | none => wrap .nil

def eval_range (env : Env) (beginning ending : Option Node) (exclusive : Bool) : P Value := do
  let b ← match beginning with
    | some node => eval_node env (some node)
    | none => pure .nil
  if beginning.isSome && (← stops b) then return b
  let e ← match ending with
    | some node => eval_node env (some node)
    | none => pure .nil
  if ending.isSome && (← stops e) then return e
  return .range b e exclusive

/-- Evaluates a list of statements up to the first that does not go on, and
returns the last value or else the one given. -/
def eval_stmts (env : Env) : Value → List (Option Node) → P Value
  | result, [] => return result
  | _, stmt :: rest => do
    let result ← eval_node env stmt
    check result (eval_stmts env result rest)

def begin_blocks (stmts : List Node) : List (Option Node) :=
  stmts.filterMap fun
    | .prog_begin _ body => some body
    | _ => none

def plain_stmts (stmts : List Node) : List (Option Node) :=
  stmts.filterMap fun
    | .prog_begin .. | .prog_end .. => none
    | stmt => some (some stmt)

def end_blocks (stmts : List Node) : List (Option Node) :=
  stmts.filterMap fun
    | .prog_end _ body => some body
    | _ => none

/-- The END blocks, in the order they run. Their results are dropped. -/
def run_end_blocks (env : Env) : List (Option Node) → P Unit
  | [] => return ()
  | body :: rest => do
    let _ ← eval_node env body
    goes_on
    run_end_blocks env rest

/-- A body: its BEGIN blocks, its statements, its END blocks from the last. -/
def eval_body (env : Env) (stmts : List Node) : P Value := do
  let result ← eval_stmts env .nil (begin_blocks stmts)
  check result do
    let result ← eval_stmts env result (plain_stmts stmts)
    check result do
      run_end_blocks env (end_blocks stmts).reverse
      return result

/-- The name of a node kind that cannot be evaluated by itself. -/
def node_kind_name : Node → String
  | .pair .. => "PAIR"
  | .block .. => "BLOCK"
  | .rescue_ .. => "RESCUE"
  | .param .. => "PARAM"
  | .block_pass .. => "BLOCK_PASS"
  | _ => "UNKNOWN"

def eval_node_kind (fuel : Nat) (env : Env) : Node → P Value
  | .nil _ => return .nil
  | .true _ => return .bool true
  | .false _ => return .bool false
  | .self _ => self_of env
  | .int _ ival => return .int ival
  | .float _ fval => return .float fval
  | .string _ sval => return val_string sval
  | .symbol _ sval => return .symbol sval
  | .regexp span pattern options => eval_regexp span pattern options
  | .rope _ rope => eval_rope env rope
  | .lvar span name => eval_lvar env span name
  | .ivar _ name => eval_ivar env name
  | .gvar span name => eval_gvar env span name
  | .cvar _ name => eval_cvar env name
  | .const span name => eval_const env span name
  | .const_access span recv name => eval_const_access env span recv name
  | .assign _ target value => eval_assign env target value
  | .op_assign span op left right => eval_op_assign env span op left right
  | .binop span op left right => eval_binop env span op left right
  | .unop span op operand => eval_unop env span op operand
  | .call span recv method args block safe_nav => eval_call env span recv method args block safe_nav
  | .defined _ expr => eval_defined env expr
  | .if_ _ cond then_body else_body => eval_if env (fun truthy => truthy) cond then_body else_body
  | .unless_ _ cond then_body else_body => eval_if env (fun truthy => !truthy) cond then_body else_body
  | .while_ _ cond body post_test => eval_while false env cond body post_test fuel
  | .until_ _ cond body post_test => eval_while true env cond body post_test fuel
  | .for_ span target iterable body => eval_for fuel env span target iterable body
  | .case_ span subject whens else_body => eval_case env span subject whens else_body
  | .patcase span subject ins else_body => eval_patcase env span subject ins else_body
  | .retry_ _ => return .retry
  | .begin_ _ body rescues else_body ensure_body => eval_begin fuel env body rescues else_body ensure_body
  | .return_ _ value => eval_jump env value fun v => return .ret v (← env_nearest_def env)
  | .break_ _ value => eval_jump env value fun v => return .brk v
  | .next_ _ value => eval_jump env value fun v => return .next v
  | .super span args forward_args => eval_super env span args forward_args
  | .def_ span recv name params body => eval_def env span recv name params body
  | .alias_ span new_name old_name => eval_alias env span new_name old_name
  | .class_ span name superclass body => eval_class env span name superclass body
  | .sclass span recv body => eval_sclass env span recv body
  | .module_ span name body => eval_module env span name body
  | .range _ beginning ending exclusive => eval_range env beginning ending exclusive
  | .array _ elements => eval_array env elements
  | .hash _ pairs _ => eval_hash env pairs
  | .body _ stmts => eval_body env stmts
  | .program _ stmts => eval_body env stmts
  | .prog_begin _ body => eval_node env body
  | .prog_end _ body => eval_node env body
  | node => eval_error (some node.span) ("cannot evaluate node kind " ++ node_kind_name node)

def eval_node_body (fuel : Nat) (env : Env) (node : Option Node) : P Value := do
  match node with
  | none => return .nil
  | some node => if (← get).errored then return .nil else eval_node_kind fuel env node

end stoned
