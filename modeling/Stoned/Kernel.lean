import Stoned.Loops

namespace stoned

open program

/-! The Kernel functions that steer the evaluator (eval_dispatch.c, builtin_kernel). -/

def tag_of : Option Value → Option String
  | some (.symbol sval) => some sval
  | some (.string sval ..) => some sval
  | _ => none

/-- A `catch` without a tag, or reached by a `throw` without one, catches it. -/
def tags_match : Option String → Option String → Bool
  | some tag, some thrown => tag == thrown
  | _, _ => true

def kernel_catch (args : List Value) (blk : Option Value) (site : Option Span) : P Value := do
  match blk with
  | none => return .nil
  | some blk =>
    match ← call_block blk args site with
    | .throw tag value =>
      if tags_match (tag_of args.head?) tag then return value else return .throw tag value
    | result => return result

def kernel_throw (args : List Value) : P Value :=
  return .throw (tag_of args.head?) ((args[1]?).getD .nil)

/-- Raises what a class's `new` made, or a message under the class's name. -/
def raise_class (env : Env) (klass : Ref) (args : List Value) (site : Option Span) : P Value := do
  let class_name := ((← get).klass klass).name
  let exc_obj ← dispatch_method { env, recv := .klass klass, name := "new", args, site }
  if ← value_is_a_named_class exc_obj "Exception" then eval_raise_value site exc_obj
  else
    let msg ← match args.head? with
      | some message => val_to_s message
      | none => pure class_name
    eval_raise_class site class_name msg

def kernel_raise (env : Env) (args : List Value) (site : Option Span) : P Value := do
  match args with
  | [] =>
    let rescue_context := (← get).rescue_context
    if ← value_is_a_named_class rescue_context "Exception" then eval_raise_value site rescue_context
    else eval_raise_class site "RuntimeError" "RuntimeError"
  | exc :: rest =>
    if ← value_is_a_named_class exc "Exception" then eval_raise_value site exc
    else
      match exc with
      | .klass k => raise_class env k rest site
      | _ => eval_raise_class site "RuntimeError" (← val_to_s exc)

def kernel_proc (is_lambda : Bool) (blk : Option Value) (site : Option Span) : P Value := do
  match blk with
  | some (.block block_node closure _ _ _) =>
    return .block block_node closure is_lambda true (← get).current_file
  | some _ => .halt
  | none => eval_raise_class site "ArgumentError" "tried to create Proc object without a block"

/-- Calls `self.included(base)` or `self.prepended(base)` of a module. Its
result is dropped, an exception stays behind. -/
def call_module_hook (mod : Ref) (hook : Option Value) (name : String) (base : Value) (site : Option Span) :
    P Unit := do
  match hook with
  | none => return ()
  | some hook =>
    let _ ← call_method_value (.klass mod) hook (some mod) name [base] none site
    goes_on

def define_singleton_instance (base : Ref) (mod : Ref) (site : Option Span) : P Unit := do
  let ev ← get
  match (ev.klass mod).name, (ev.klass base).class_env with
  | "Singleton", some class_env =>
    let span := site.getD { line := 0, col := 0, len := 0 }
    env_define class_env "self.instance"
      (.method (.def_ span none "instance" [] (some (.body span []))) ev.top_env .method_public ev.current_file)
  | _, _ => return ()

def include_modules (base : Ref) (site : Option Span) : List Value → P Value
  | [] => return .nil
  | .klass mod :: rest => do
    if ((← get).klass mod).is_module then
      set_class base fun k => { k with included_modules := mod :: k.included_modules }
      let hook := only_method (← get_own ((← get).klass mod).class_env "self.included")
      call_module_hook mod hook "included" (.klass base) site
      define_singleton_instance base mod site
      include_modules base site rest
    else eval_raise_class site "TypeError" "include requires a Module"
  | _ :: _ => eval_raise_class site "TypeError" "include requires a Module"

def kernel_include (env : Env) (args : List Value) (site : Option Span) : P Value := do
  match ← env_get env "self" with
  | some (.klass base) => include_modules base site args
  | _ =>
    match ← top_class "Object" with
    | some base => include_modules base site args
    | none => eval_raise_class site "TypeError" "include must be called in a class or module body"

def prepend_modules (base : Ref) (site : Option Span) : List Value → P Value
  | [] => return .nil
  | .klass mod :: rest => do
    if ((← get).klass mod).is_module then
      set_class base fun k => { k with prepended_modules := mod :: k.prepended_modules }
      let hook ← get_method_from ((← get).klass mod).class_env "self.prepended"
      call_module_hook mod hook "prepended" (.klass base) site
      prepend_modules base site rest
    else eval_raise_class site "TypeError" "prepend requires a Module"
  | _ :: _ => eval_raise_class site "TypeError" "prepend requires a Module"

def kernel_prepend (env : Env) (args : List Value) (site : Option Span) : P Value := do
  match ← env_get env "self" with
  | some (.klass base) => prepend_modules base site args
  | _ => eval_raise_class site "TypeError" "prepend must be called in a class or module body"

def builtin_kernel_body (fuel : Nat) (env : Env) (name : String) (args : List Value) (blk : Option Value)
    (site : Option Span) : P Value :=
  match name with
  | "catch" => kernel_catch args blk site
  | "throw" => kernel_throw args
  | "raise" => kernel_raise env args site
  | "fail" => kernel_raise env args site
  | "proc" => kernel_proc false blk site
  | "lambda" => kernel_proc true blk site
  | "loop" =>
    match blk with
    | some blk => kernel_loop blk site fuel
    | none => eval_raise_class site "LocalJumpError" "no block given (loop)"
  | "include" => kernel_include env args site
  | "prepend" => kernel_prepend env args site
  | _ => other_builtin_kernel env name args blk site

end stoned
