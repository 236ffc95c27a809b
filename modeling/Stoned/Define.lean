import Stoned.Super

namespace stoned

open program

/-! Definitions of methods, aliases, classes and modules (eval.c). -/

def class_method_key (name : String) : String := "self." ++ name

def current_method_visibility (env : Env) : P MethodVisibility := do
  match ← env_get env "__visibility__" with
  | some (.symbol visibility) =>
    if visibility = "private" || visibility = "module_function" then return .method_private
    else if visibility = "protected" then return .method_protected
    else return .method_public
  | _ => return .method_public

def is_module_function_mode (env : Env) : P Bool := do
  match ← env_get env "__visibility__" with
  | some (.symbol visibility) => return visibility = "module_function"
  | _ => return false

def visibility_name : MethodVisibility → String
  | .method_public => "public"
  | .method_private => "private"
  | .method_protected => "protected"

def set_current_method_visibility (env : Env) (visibility : MethodVisibility) : P Unit :=
  env_define env "__visibility__" (.symbol (visibility_name visibility))

/-- A method made from a def; its closure is the top-level frame. -/
def method_of (node : Node) (visibility : MethodVisibility) : P Value := do
  let ev ← get
  return .method node ev.top_env visibility ev.current_file

/-- The hook `method_added`. Its errors are dropped. -/
def fire_method_added (env : Env) (klass : Value) (mname : String) (site : Span) : P Unit := do
  match klass with
  | .klass k =>
    if (← ruby_class_find_class_method k "method_added").isSome then
      let result ← dispatch_method {
        env, recv := klass, name := "method_added", args := [.symbol mname], site := some site }
      if result.kind = .exception then slip
      modify fun ev => { ev with current_exception := .nil, exception_class := none, exception_msg := "" }
  | _ => return ()

/-- Defines a method in a singleton frame, which is made when it is needed. -/
def define_in_singleton (recv method : Value) (name : String) : P Unit := do
  let singleton_env ← match ← value_singleton_env recv with
    | some singleton_env => pure singleton_env
    | none =>
      let singleton_env ← env_new none true
      set_singleton_env recv singleton_env
      pure singleton_env
  env_define singleton_env name method

/-- `env_define` in the frame of a class. -/
def define_in_class (klass : Ref) (name : String) (val : Value) : P Unit := do
  match ((← get).klass klass).class_env with
  | some class_env => env_define class_env name val
  | none => .halt

/-- `def recv.name` -/
def define_on_receiver (node : Node) (recv : Value) (name : String) (span : Span) : P Value := do
  match recv with
  | .klass k =>
    define_in_class k (class_method_key name) (← method_of node .method_public)
    return .nil
  | recv =>
    if has_singleton_slot recv then
      define_in_singleton recv (← method_of node .method_public) name
      return .nil
    else eval_raise_class (some span) "TypeError" "can only define singleton methods on heap objects"

/-- The frame a plain def is hoisted to: that of the class self is. -/
def def_target (env : Env) (self : Value) : P Env := do
  match self with
  | .klass k => return ((← get).klass k).class_env.getD env
  | _ => return env

/-- Defines a method where plain defs go, with its hook and, in
module_function mode, the module's own copy of it. -/
def define_method (env : Env) (node : Node) (name : String) (span : Span) (self : Value) (target : Env) :
    P Unit := do
  env_define target name (← method_of node (← current_method_visibility env))
  fire_method_added env self name span
  match self with
  | .klass k =>
    if ((← get).klass k).is_module then
      if ← is_module_function_mode env then
        env_define target (class_method_key name) (← method_of node .method_public)
  | _ => return ()

/-- Whether a name starts with an upper-case letter. -/
def is_const_name (name : String) : Bool :=
  match name.toList with
  | c :: _ => 'A' ≤ c && c ≤ 'Z'
  | [] => false

/-- A def without receiver outside of a singleton class. A top-level def named
like a class is kept under another key. -/
def define_plain (env : Env) (node : Node) (name : String) (span : Span) : P Unit := do
  let self ← self_of env
  let target ← def_target env self
  let top_env := (← get).top_env
  let would_shadow ←
    if is_const_name name && target == env then
      match ← env_get top_env name with
      | some (.klass _) => pure true
      | _ => pure false
    else pure false
  if would_shadow then env_define top_env (kernel_key name) (← method_of node .method_private)
  else define_method env node name span self target

/-- `def`. Inside `class << recv` it defines on recv. -/
def eval_def (env : Env) (span : Span) (recv : Option Node) (name : String) (params : List Node)
    (body : Option Node) : P Value := do
  let node := Node.def_ span recv name params body
  match recv with
  | some recv =>
    let recv ← eval_node env (some recv)
    check recv (define_on_receiver node recv name span)
  | none =>
    match ← env_get env "__singleton_target__" with
    | some (.klass k) =>
      define_in_class k (class_method_key name) (← method_of node (← current_method_visibility env))
    | some singleton_target =>
      if has_singleton_slot singleton_target then
        define_in_singleton singleton_target (← method_of node (← current_method_visibility env)) name
      else
        let self ← self_of env
        define_method env node name span self (← def_target env self)
    | none => define_plain env node name span
    return .nil

/-- The functions of the kernel an alias may name although no method is found. -/
def kernel_fns : List String :=
  ["load", "require", "require_relative", "puts", "print", "p", "pp", "warn", "exit", "abort", "raise", "fail",
   "lambda", "proc", "loop", "rand", "format", "sprintf", "system", "Integer", "Float", "String", "Array",
   "__method__", "__dir__", "__callee__", "gets", "sleep", "at_exit"]

/-- `def new_name(*args) = old_name(*args)`, for an alias of a kernel function. -/
def forwarding_def (new_name old_name : String) : Node :=
  let rest_param := Node.param no_span (some "__fwd_args__") none true false false false
  let splat_arg := Node.unop no_span "*" (.lvar no_span "__fwd_args__")
  .def_ no_span none new_name [rest_param] (some (.call no_span none old_name [splat_arg] none false))

/-- An alias in a class body. Returns whether the old name was found. -/
def alias_in_class (env : Env) (klass : Ref) (class_env : Env) (new_name old_name : String) : P Bool := do
  let in_singleton_class ← match ← env_get env "__singleton_target__" with
    | some (.klass target) => pure (target == klass)
    | _ => pure false
  if in_singleton_class then
    match ← env_get_method class_env (class_method_key old_name) with
    | some method =>
      env_define class_env (class_method_key new_name) method
      return true
    | none =>
      if ← val_responds_to (.klass klass) old_name true then
        env_define class_env (class_method_key new_name) (.symbol old_name)
        return true
      else return false
  else
    match ← ruby_class_find_instance_method klass old_name with
    | some (method, _) =>
      env_define class_env new_name method
      return true
    | none =>
      let probe ← val_object (.klass klass)
      if ← val_responds_to probe old_name true then
        env_define class_env new_name (.symbol old_name)
        return true
      else if kernel_fns.contains old_name then
        env_define class_env new_name
          (.method (forwarding_def new_name old_name) env .method_public (← get).current_file)
        return true
      else return false

def eval_alias (env : Env) (span : Span) (new_name old_name : String) : P Value := do
  let open_class_env ← match ← env_get env "self" with
    | some (.klass k) => pure (((← get).klass k).class_env.map fun class_env => (k, class_env))
    | _ => pure none
  let found ← match open_class_env with
    | some (k, class_env) => alias_in_class env k class_env new_name old_name
    | none =>
      match ← env_get_method env old_name with
      | some method =>
        env_define env new_name method
        pure true
      | none => pure false
  if found then return .nil
  else eval_raise_class (some span) "NameError" ("undefined method '" ++ old_name ++ "' for alias")

/-- Where a class or module statement defines its name, and the name in full;
the parent's path when the parent does not exist. -/
def definition_place (env : Env) (name : String) : P (String ⊕ Env × String) := do
  let (parent_name, leaf_name) := split_const_path name
  match parent_name with
  | some parent_name =>
    match ← lookup_const_path env parent_name with
    | .klass parent =>
      match ((← get).klass parent).class_env with
      | some class_env => return .inr (class_env, name)
      | none => .halt
    | _ => return .inl parent_name
  | none =>
    match ← open_class env with
    | some (class_env, class_name) => return .inr (class_env, qualify_const_name class_name leaf_name)
    | none => return .inr ((← get).top_env, name)

/-- Defines a new class or module under its names, with a frame of its own. -/
def new_class (target_env : Env) (leaf_name full_name : String) (superclass : Option Ref) (is_module : Bool) :
    P Ref := do
  let k ← val_class full_name superclass
  let class_env ← env_new (some target_env) true
  set_class k fun klass => { klass with class_env := some class_env, is_module }
  env_define target_env leaf_name (.klass k)
  env_define (← get).top_env full_name (.klass k)
  return k

/-- The hook `inherited` of the nearest superclass that has it. Its result is
dropped, an exception stays behind. -/
def fire_inherited (superclass klass : Ref) (site : Span) : List Ref → P Unit
  | [] => return ()
  | sc :: rest => do
    match only_method (← get_own ((← get).klass sc).class_env "self.inherited") with
    | some cm =>
      let _ ← call_method_value (.klass superclass) cm (some sc) "inherited" [.klass klass] none (some site)
      goes_on
    | none => fire_inherited superclass klass site rest

/-- Runs the body of a class or module in its frame and returns the class. -/
def run_class_body (k : Ref) (body : Option Node) : P Value := do
  match ((← get).klass k).class_env with
  | none => .halt
  | some class_env =>
    env_set class_env "self" (.klass k)
    env_set class_env "__class__" (.klass k)
    env_set class_env "__singleton_target__" .nil
    set_current_method_visibility class_env .method_public
    match body with
    | none => return .klass k
    | some body =>
      let body_result ← eval_node class_env (some body)
      if val_is_signal body_result then return body_result else return .klass k

/-- The value of a class statement's superclass. -/
def eval_superclass (env : Env) (leaf_name : String) (superclass : Option Node) : P Value := do
  match superclass with
  | some superclass => eval_node env (some superclass)
  | none =>
    if leaf_name = "Object" then return .nil
    else
      match ← top_class "Object" with
      | some object => return .klass object
      | none => return .nil

def eval_class (env : Env) (span : Span) (name : String) (superclass body : Option Node) : P Value := do
  let leaf_name := (split_const_path name).2
  match ← definition_place env name with
  | .inl parent_name =>
    eval_raise_class (some span) "NameError" ("uninitialized constant '" ++ parent_name ++ "'")
  | .inr (target_env, full_name) =>
    let reopened ← match ← env_get_own target_env leaf_name with
      | some (.klass k) => pure (if ((← get).klass k).is_module then none else some k)
      | _ => pure none
    match reopened with
    | some k => run_class_body k body
    | none =>
      let superclass ← eval_superclass env leaf_name superclass
      check superclass do
        match superclass with
        | .klass parent =>
          let k ← new_class target_env leaf_name full_name (some parent) false
          fire_inherited parent k span ((← get).superclasses (some parent))
          run_class_body k body
        | .nil => run_class_body (← new_class target_env leaf_name full_name none false) body
        | _ => eval_raise_class (some span) "TypeError" "superclass must be a class"

def eval_module (env : Env) (span : Span) (name : String) (body : Option Node) : P Value := do
  let leaf_name := (split_const_path name).2
  match ← definition_place env name with
  | .inl parent_name =>
    eval_raise_class (some span) "NameError" ("uninitialized constant '" ++ parent_name ++ "'")
  | .inr (target_env, full_name) =>
    match ← env_get_own target_env leaf_name with
    | some (.klass k) =>
      if ((← get).klass k).is_module then run_class_body k body
      else run_class_body (← new_class target_env leaf_name full_name none true) body
    | _ => run_class_body (← new_class target_env leaf_name full_name none true) body

/-- The frame `class << recv` opens. -/
def singleton_class_env (recv : Value) : P (Option Env) := do
  match recv with
  | .klass k =>
    match ((← get).klass k).class_env with
    | some class_env => return some class_env
    | none => .halt
  | .object o =>
    match ((← get).object o).singleton_env with
    | some singleton_env => return some singleton_env
    | none =>
      let singleton_env ← env_new none true
      set_singleton_env recv singleton_env
      return some singleton_env
  | _ => return none

def eval_sclass (env : Env) (span : Span) (recv : Node) (body : Option Node) : P Value := do
  let recv ← eval_node env (some recv)
  check recv do
    match ← singleton_class_env recv with
    | none => eval_raise_class (some span) "TypeError" "singleton class must be opened on an object"
    | some target_env =>
      env_set target_env "self" recv
      if recv.kind = .klass then env_set target_env "__class__" recv
      let prev_singleton_target := (← env_get target_env "__singleton_target__").getD .nil
      let prev_visibility := (← env_get target_env "__visibility__").getD .nil
      env_set target_env "__singleton_target__" recv
      set_current_method_visibility target_env .method_public
      let body_result ← match body with
        | some body => eval_node target_env (some body)
        | none => pure recv
      if body.isSome && val_is_signal body_result then return body_result
      env_set target_env "__singleton_target__" prev_singleton_target
      match prev_visibility with
      | .symbol visibility => env_set target_env "__visibility__" (.symbol visibility)
      | _ => set_current_method_visibility target_env .method_public
      return body_result

end stoned
