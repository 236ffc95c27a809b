import Stoned.Arguments

namespace stoned

open program

/-! Call nodes (eval_dispatch.c, eval_call). -/

def no_span : Span := { line := 0, col := 0, len := 0 }

/-- `->(recv, *rest) { recv.method_name(*rest) }` -/
def make_symbol_proc (method_name : String) : P Value := do
  let rest_var := Node.lvar no_span "__sym_rest__"
  let call_node := Node.call no_span (some (.lvar no_span "__sym_recv__")) method_name
    [.unop no_span "*" rest_var] none false
  let params := [
    Node.param no_span (some "__sym_recv__") none false false false false,
    Node.param no_span (some "__sym_rest__") none true false false false]
  return .block (.block no_span params (some (.body no_span [call_node]))) (← get).top_env true true none

/-- `->(*args) { receiver.method_name(*args) }`, without the receiver when it
is nil. -/
def make_bound_method_proc (receiver : Value) (method_name : String) (forced_arity : Int64) : P Value := do
  let closure ← env_new (some (← get).top_env) false
  env_define closure "__bound_recv__" receiver
  env_define closure "__bound_arity__" (.int forced_arity)
  let recv := if receiver.kind = .nil then none else some (Node.lvar no_span "__bound_recv__")
  let call_node := Node.call no_span recv method_name
    [.unop no_span "*" (.lvar no_span "__bound_args__")] none false
  let params := [Node.param no_span (some "__bound_args__") none true false false false]
  return .block (.block no_span params (some (.body no_span [call_node]))) closure true true none

def method_object_arity (method_obj : Value) : P Int64 := do
  match ← val_object_get_ivar method_obj "__method__" with
  | some (.method def_node ..) => return .ofInt (proc_arity (method_code def_node).1 true)
  | _ =>
    match ← val_object_get_ivar method_obj "__native_arity__" with
    | some (.int arity) => return arity
    | _ => return -1

def text_of : Value → Option String
  | .symbol sval => some sval
  | .string sval .. => some sval
  | _ => none

/-- The block a `&value` argument stands for. Anything that is no symbol, block
or Method object passes no block. -/
def block_from (bp : Value) : P (Option Value) := do
  match bp with
  | .symbol name => return some (← make_symbol_proc name)
  | .block block_node closure is_lambda is_proc_object def_file =>
    return some (.block block_node closure is_lambda is_proc_object def_file)
  | .object o =>
    let ev ← get
    match ev.class_of_object o with
    | none => return none
    | some k =>
      if (ev.klass k).name = "Method" then
        match ← val_object_get_ivar bp "__receiver__", ← val_object_get_ivar bp "__method_name__" with
        | some receiver, some method_name =>
          match text_of method_name with
          | some method_name =>
            return some (← make_bound_method_proc receiver method_name (← method_object_arity bp))
          | none => .halt
        | _, _ => return none
      else return none
  | _ => return none

/-- The block of a call: its literal block, or that of `&expr`. -/
def block_of_call (env : Env) (block : Option Node) (block_pass : Option (Option Node)) :
    P (Value ⊕ Option Value) := do
  match block, block_pass with
  | some block, _ => return .inr (some (.block block env false false (← get).current_file))
  | none, some expr =>
    let bp ← eval_node env expr
    if val_is_signal bp then return .inl bp
    return .inr (← block_from bp)
  | none, none => return .inr none

def set_all (env : Env) : List (String × Value) → P Unit
  | [] => return ()
  | (name, val) :: rest => do
    env_set env name val
    set_all env rest

/-- The frame of a method that eval_call runs itself, with its parameters bound. -/
def inline_frame (closure : Env) (params : List Node) (bindings : List (String × Value)) (args : List Value)
    (blk : Option Value) : P Env := do
  let frame ← env_new (some closure) true
  set_all frame bindings
  if blk.isSome then set_block_arg frame blk
  bind_params frame params args
  return frame

/-- That frame, or nothing when an exception was raised. -/
def enter_inline (closure : Env) (params : List Node) (bindings : List (String × Value)) (args : List Value)
    (blk : Option Value) : P (Option Env) := do
  let frame ← inline_frame closure params bindings args blk
  if (← get).exception_class.isSome then return none else return some frame

/-- The call sequence eval_call writes out itself instead of going through
call_method_value: a frame with the given bindings, the parameters, the body.
It neither looks at the number of arguments nor at the method's file. -/
def call_inline (fn : Value) (bindings : List (String × Value)) (name : String) (args : List Value)
    (blk : Option Value) (site : Option Span) : P Value := do
  match fn with
  | .method (.def_ _ _ _ params body) closure _ _ =>
    match ← enter_inline closure params bindings args blk with
    | none => return .exception
    | some frame => return caught_return frame (← run_method_body frame name body site)
  -- the source reads the parts of a def out of whatever the method was made from
  | _ => .halt

/-- The label call_method: a method found under a bare name. -/
def call_method (fn : Value) (name : String) (args : List Value) (blk : Option Value) (site : Option Span) :
    P Value :=
  call_inline fn [("__method__", .symbol name)] name args blk site

def kernel_names : List String :=
  ["puts", "print", "p", "pp", "warn", "Integer", "Float", "String", "Array", "Hash", "Rational", "Complex",
   "format", "sprintf", "printf", "raise", "proc", "lambda", "loop", "rand", "srand", "open", "exit", "exit!",
   "abort", "include", "prepend", "extend",
   "require", "require_relative", "public", "private", "protected",
   "private_class_method", "public_class_method", "protected_class_method",
   "attr_reader", "attr_writer", "attr_accessor", "alias_method", "module_function", "autoload",
   "deprecate_constant", "private_constant", "public_constant",
   "__dir__", "__method__", "__FILE__", "__LINE__", "__callee__", "binding", "eval", "\x60",
   "trap", "at_exit", "sleep", "catch", "throw", "method", "respond_to?", "caller", "caller_locations",
   "system", "spawn", "wait", "waitpid", "load"]

/-- Whether the class of self has an entry for a name. -/
def self_has_method (self : Value) (name : String) : P Bool := do
  match self with
  | .object o =>
    match (← get).class_of_object o with
    | some k => return (← ruby_class_find_instance_method k name).isSome
    | none => return false
  | _ => return false

def kernel_key (name : String) : String := "__kern__" ++ name

/-- The method a bare name finds in the scope: one defined under the name of a
class comes first. -/
def find_bare_method (env : Env) (name : String) : P (Option Value) := do
  match ← env_get_method (← get).top_env (kernel_key name) with
  | some fn => return some fn
  | none => env_get_method env name

/-- The copies of the call sequence kept for frames in which `self` turned out
to be an object or a class after all. -/
def call_on_late_self (env : Env) (name : String) (args : List Value) (blk : Option Value)
    (site : Option Span) : P (Option Value) := do
  let self ← self_of env
  let ev ← get
  match self with
  | .object o =>
    let singleton ← match (ev.object o).singleton_env with
      | some singleton_env => env_get_method singleton_env name
      | none => pure none
    match singleton with
    | some fn =>
      let bindings := [("self", self), ("__method__", .symbol name), ("__class__", (ev.object o).klass)]
      return some (← call_inline fn bindings name args blk site)
    | none =>
      match ev.class_of_object o with
      | none => return none
      | some k =>
        match ← ruby_class_find_instance_method k name with
        | some (fn, owner) =>
          let owner_val := owner.elim .nil .klass
          let bindings := [("self", self), ("__method__", .symbol name), ("__class__", owner_val)]
          return some (← call_inline fn bindings name args blk site)
        | none => return none
  | .klass k =>
    match ← ruby_class_find_class_method k name with
    | some (.method def_node closure visibility def_file, owner) =>
      let owner_val := owner.elim .nil .klass
      let bindings := [("self", self), ("__method__", .symbol name), ("__class__", owner_val)]
      return some (← call_inline (.method def_node closure visibility def_file) bindings name args blk site)
    | _ => return none
  | _ => return none

/-- A bare name in a frame without self: nil's methods when self is bound to
nil, then whatever the name is bound to. -/
def call_without_self (env : Env) (name : String) (args : List Value) (blk : Option Value)
    (site : Option Span) : P Value := do
  let on_nil ← match ← env_get env "self" with
    | none | some (.object _) | some (.klass _) => pure none
    | some self =>
      let result ← dispatch_method { env, recv := self, name, args, blk, site, explicit_receiver := 0 }
      if (← get).errored then
        modify fun ev => { ev with errored := false }
        pure none
      else pure (some result)
  match on_nil with
  | some result => return result
  | none =>
    match ← env_get env name with
    | none => eval_raise_class site "NoMethodError" ("undefined method '" ++ name ++ "'")
    | some (.method def_node closure visibility def_file) =>
      call_method (.method def_node closure visibility def_file) name args blk site
    | some _ => eval_raise_class site "TypeError" ("'" ++ name ++ "' is not a method")

/-- A call without a receiver. -/
def eval_bare_call (env : Env) (name : String) (args : List Value) (blk : Option Value) (site : Option Span) :
    P Value := do
  if name = "yield" then
    match ← env_block_arg env with
    | none => eval_raise_class site "LocalJumpError" "no block given (yield)"
    | some block_arg => call_block block_arg args site
  else if name = "block_given?" then return .bool (← env_block_arg env).isSome
  else if kernel_names.contains name then builtin_kernel env name args blk site
  else
    let self ← self_of env
    if ← self_has_method self name then
      dispatch_method { env, recv := self, name, args, blk, site, explicit_receiver := 0 }
    else
      match ← find_bare_method env name with
      | some fn => call_method fn name args blk site
      | none =>
        if self.kind ≠ .nil then
          dispatch_method { env, recv := self, name, args, blk, site, explicit_receiver := 0 }
        else
          match ← call_on_late_self env name args blk site with
          | some result => return result
          | none => call_without_self env name args blk site

/-- Stores the new value of a receiver that is a variable. -/
def update_receiver (env : Env) (recv_node : Node) (result : Value) : P Unit := do
  match recv_node with
  | .lvar _ name => env_set env name result
  | .ivar _ name =>
    match ← env_get env "self" with
    | some (.object o) => val_object_set_ivar (.object o) name result
    | _ => return ()
  | .gvar _ name => global_set name result
  | _ => return ()

/-- The methods whose result becomes the receiver variable's value. -/
def mutating_methods : List String :=
  ["<<", "concat", "replace", "clear", "prepend", "insert", "force_encoding", "freeze",
   "upcase!", "downcase!", "strip!", "lstrip!", "rstrip!", "chomp!", "chop!", "reverse!", "capitalize!",
   "swapcase!", "gsub!", "sub!", "setbyte"]

def is_updatable (result : Value) : Bool :=
  match result.kind with
  | .string | .array | .hash => true
  | _ => false

def is_string (v : Value) : Bool := v.kind = .string

/-- The part `slice!` took out of a text. -/
def sliced_portion (text : String) (args : List Value) : Value :=
  let s := (c_string text).toList
  match args with
  | .int i :: rest =>
    let idx : Int := if i < 0 then i.toInt + s.length else i.toInt
    if idx < 0 ∨ s.length ≤ idx then .nil
    else
      match rest with
      | .int len :: _ =>
        if len < 0 then .nil
        else val_string (String.ofList ((s.drop idx.toNat).take len.toInt.toNat))
      | _ => val_string (String.ofList ((s.drop idx.toNat).take 1))
  | _ => .nil

def is_int : Option Value → Bool
  | some (.int _) => true
  | _ => false

/-- After a call on a receiver: the methods that work by handing back the
receiver's new value have it stored in the receiver's variable. -/
def write_back (env : Env) (recv_node : Node) (recv : Value) (method : String) (args : List Value)
    (result : Value) : P Value := do
  let updates := is_updatable result && mutating_methods.contains method
  if updates then update_receiver env recv_node result
  if updates && method = "setbyte" && 2 ≤ args.length then return args.getD 1 .nil
  else if method = "[]=" && is_string recv && is_string result then
    update_receiver env recv_node result
    return args.getLast?.getD result
  else if method = "slice!" && is_string recv && is_string result && is_int args.head? then
    update_receiver env recv_node result
    match recv with
    | .string sval .. => return sliced_portion sval args
    | _ => return result
  else return result

def is_subscript (method : String) : Bool := method = "[]" || method = "[]="

/-- A call on an explicit receiver, which is evaluated behind the arguments. -/
def eval_receiver_call (env : Env) (span : Span) (recv_node : Node) (method : String) (args : List Value)
    (blk : Option Value) (safe_nav : Bool) : P Value := do
  let recv ← eval_node env (some recv_node)
  check recv do
    if safe_nav && recv.kind = .nil then return .nil
    let subscript ←
      if recv.kind = .array && is_subscript method then array_subscript recv method args (some span)
      else pure none
    match subscript with
    | some result => return result
    | none =>
      let result ← dispatch_method { env, recv, name := method, args, blk, site := some span }
      if val_is_signal result then return result
      write_back env recv_node recv method args result

def eval_call (env : Env) (span : Span) (recv : Option Node) (method : String) (arg_nodes : List Node)
    (block : Option Node) (safe_nav : Bool) : P Value := do
  if EVAL_MAX_DEPTH < (← get).call_depth then
    eval_raise_class (some span) "SystemStackError" "stack level too deep"
  else
    match ← collect_arguments env { args := [], kwargs := none, block_pass := none } arg_nodes with
    | .inl signal => return signal
    | .inr acc =>
      match ← block_of_call env block acc.block_pass with
      | .inl signal => return signal
      | .inr blk =>
        match recv with
        | none => eval_bare_call env method acc.list blk (some span)
        | some recv => eval_receiver_call env span recv method acc.list blk safe_nav

end stoned
