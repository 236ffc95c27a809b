import Stoned.Constants

namespace stoned

open program

/-! Assignment (eval.c). -/

def assign_lvar (env : Env) (name : String) (val : Value) : P Unit := do
  if ← env_update env name val then return () else env_set env name val

def self_of (env : Env) : P Value := return (← env_get env "self").getD .nil

/-- The class of `self`, for class variables. -/
def class_of_self (self : Value) : P (Option Ref) := do
  match self with
  | .klass k => return some k
  | .object o => return (← get).class_of_object o
  | _ => return none

def validate_special_global_assignment (target : Node) (val : Value) : P Bool := do
  match target with
  | .gvar span name =>
    if name = "stdout" || name = "stderr" then
      let writable ←
        if ← value_is_a_named_class val "IO" then pure true
        else if ← value_is_a_named_class val "File" then pure true
        else val_responds_to val "write" true
      if writable then return true
      else
        let _ ← eval_raise_class (some span) "TypeError"
          ("$" ++ name ++ " must have write method, " ++ (← value_class_name val) ++ " given")
        return false
    else return true
  | _ => return true

/-- The class that has a class variable: looked for from the class the code is
in, then from the class of self. -/
def find_cvar (env : Env) (key : String) : P (Option (Ref × Value)) := do
  let class_ctx ← current_class (some env)
  match ← find_in_class_envs key ((← get).superclasses class_ctx) with
  | some found => return some found
  | none =>
    let self_klass ← class_of_self (← self_of env)
    find_in_class_envs key ((← get).superclasses self_klass)

def assign_ivar (env : Env) (span : Span) (name : String) (val : Value) : P Unit := do
  match ← env_get env "self" with
  | some (.object o) =>
    let ev ← get
    if (ev.object o).frozen then
      let kname := match ev.class_of_object o with
        | some k => (ev.klass k).name
        | none => "Object"
      let _ ← eval_raise_class (some span) "FrozenError" ("can't modify frozen " ++ kname)
    else val_object_set_ivar (.object o) name val
  | some (.klass k) =>
    match ((← get).klass k).class_env with
    | some class_env => env_define class_env ("@" ++ name) val
    | none => global_set name val
  | _ => global_set name val

def assign_cvar (env : Env) (name : String) (val : Value) : P Unit := do
  let key := cvar_key name
  let owner ← match ← find_cvar env key with
    | some (k, _) => pure (some k)
    | none =>
      match ← current_class (some env) with
      | some k => pure (some k)
      | none => class_of_self (← self_of env)
  let ev ← get
  match owner.bind fun k => (ev.klass k).class_env with
  | some class_env => env_define class_env key val
  | none => global_set key val

def is_anonymous_name (existing : String) : Bool :=
  has_prefix "Struct::Anonymous" existing || has_prefix "#<Class:" existing ||
    existing = "#<Class>" || has_prefix "Anonymous" existing

/-- A class assigned to a constant takes its name if it has none. -/
def name_anonymous_class (name : String) (val : Value) : P Unit := do
  match val with
  | .klass k =>
    if is_anonymous_name ((← get).klass k).name then set_class k fun klass => { klass with name }
  | _ => return ()

/-- The frame and name of the class whose body is running in exactly `env`. -/
def open_class (env : Env) : P (Option (Env × String)) := do
  match ← env_get env "self" with
  | some (.klass k) =>
    let klass := (← get).klass k
    if klass.class_env = some env then return some (env, klass.name) else return none
  | _ => return none

def assign_const (env : Env) (name : String) (val : Value) : P Unit := do
  let (parent_name, leaf_name) := split_const_path name
  let parent_env ← match parent_name with
    | none => pure none
    | some parent_name =>
      match ← lookup_const_path env parent_name with
      | .klass k => pure ((← get).klass k).class_env
      | _ => pure none
  let top_env := (← get).top_env
  match parent_env with
  | some class_env =>
    env_define class_env leaf_name val
    env_define top_env name val
  | none =>
    match ← open_class env with
    | some (class_env, class_name) =>
      env_define class_env name val
      env_define top_env (qualify_const_name class_name name) val
    | none => env_define top_env name val
    name_anonymous_class name val

/-- The setter an attribute or element assignment calls. -/
def setter_name (method : String) : String :=
  if method = "[]" then "[]="
  else if method ≠ "" && method.toList.getLast? ≠ some '=' then method ++ "="
  else method

/-- Evaluates the subscripts of an assignment; nothing when one is a signal,
which also sets `errored`. -/
def eval_subscripts (env : Env) : List Value → List Node → P (Option (List Value))
  | done, [] => return some done
  | done, arg :: rest => do
    if 64 ≤ done.length then return some done
    let a ← eval_node env (some arg)
    if val_is_signal a then
      modify fun ev => { ev with errored := true }
      return none
    eval_subscripts env (done ++ [a]) rest

def assign_call (env : Env) (target : Node) (span : Span) (recv : Option Node) (method : String)
    (args : List Node) (val : Value) : P Unit := do
  let recv ← eval_node env (some (recv.getD target))
  if val_is_signal recv then
    modify fun ev => { ev with errored := true }
  else
    match ← eval_subscripts env [] args with
    | none => return ()
    | some setargs =>
      let _ ← dispatch_method {
        env, recv, name := setter_name method, args := setargs ++ [val], site := some span }

def assign_target_body (env : Env) (target : Node) (val : Value) : P Unit := do
  match target with
  | .array _ elements => destructure (assign_target env) elements val 0 elements
  | .param _ (some name) .. => assign_lvar env name val
  | .lvar _ name => assign_lvar env name val
  | .ivar span name => assign_ivar env span name val
  | .gvar _ name => if ← validate_special_global_assignment target val then global_set name val
  | .cvar _ name => assign_cvar env name val
  | .const _ name => assign_const env name val
  | .call span recv method args _ _ => assign_call env target span recv method args val
  | _ => return ()

end stoned
