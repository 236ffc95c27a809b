import Stoned.Ops

namespace stoned

open program

/-- A method call on its way to a receiver: the arguments of dispatch_method. -/
structure Send where
  env : Env
  recv : Value
  name : String
  args : List Value := []
  blk : Option Value := none
  site : Option Span
  public_only : Bool := false
  explicit_receiver : Int := 1

/-- The stretches of dispatch_method that answer built-in methods, in order. -/
inductive BuiltinStage where
  /-- Enumerator#map -/
  | enumerator
  /-- what every object answers: nil? to Symbol and Proc methods -/
  | common
  /-- dispatch_integer to dispatch_range, for the primitive kinds -/
  | primitive
  /-- dispatch_nil and dispatch_bool -/
  | nil_bool
  /-- dispatch_class up to the class's own methods -/
  | klass
  /-- dispatch_object up to the object's own methods -/
  | object
  /-- the String methods of a subclass of String -/
  | string_subclass

/-- The built-ins that are not written out: what they do is a parameter. -/
inductive Builtin where
  | val_to_s (v : Value)
  | val_inspect (v : Value)
  | val_responds_to (recv : Value) (name : String) (include_private : Bool)
  | hash_equal (a b : Ref)
  | regex_compile (pattern : String) (options : UInt32)
  | arithmetic (env : Env) (op : String) (left right : Value) (site : Option Span)
  | array_subscript (recv : Value) (method : String) (args : List Value) (site : Option Span)
  | builtin_kernel (env : Env) (name : String) (args : List Value) (blk : Option Value)
      (site : Option Span)
  | dispatch (stage : BuiltinStage) (send : Send)

/-- A built-in that looks at a call first answers nothing when it is not its
own; a failed compilation answers its message. -/
def Builtin.Answer : Builtin → Type
  | .val_to_s _ | .val_inspect _ => String
  | .val_responds_to .. | .hash_equal .. => Bool
  | .regex_compile .. => Option String
  | .arithmetic .. | .array_subscript .. | .dispatch .. => Option Value
  | .builtin_kernel .. => Value

/-- The functions of the evaluator that call one another. -/
inductive Call where
  | val_equal (a b : Value)
  | eval_node (env : Env) (node : Option Node)
  | assign_target (env : Env) (target : Node) (val : Value)
  | match_pattern (env binding_env : Env) (val : Value) (pat : Option Node)
  | lookup_const_head (env : Option Env) (name : String)
  | ruby_class_find_instance_method (klass : Ref) (name : String)
  | ruby_class_find_super_method_inner (klass after : Ref) (seen_after : Bool) (name : String)
  | bind_pattern (env : Env) (pattern : Node) (val : Value)
  | call_method_value (recv method : Value) (owner : Option Ref) (name : String) (args : List Value)
      (blk : Option Value) (site : Option Span)
  | call_block (blk : Value) (args : List Value) (call_site : Option Span)
  | dispatch_method (send : Send)
  | builtin_kernel (env : Env) (name : String) (args : List Value) (blk : Option Value)
      (site : Option Span)
  | builtin (b : Builtin)

/-- A method lookup answers the entry it found and, for a method, its owner;
the inner loop of a super lookup also whether it has passed the caller. -/
def Call.Answer : Call → Type
  | .val_equal .. => Bool
  | .eval_node .. => Value
  | .assign_target .. => Unit
  | .match_pattern .. => Bool
  | .lookup_const_head .. => Value
  | .ruby_class_find_instance_method .. => Option (Value × Option Ref)
  | .ruby_class_find_super_method_inner .. => Bool × Option (Value × Ref)
  | .bind_pattern .. => Unit
  | .call_method_value .. => Value
  | .call_block .. => Value
  | .dispatch_method _ => Value
  | .builtin_kernel .. => Value
  | .builtin b => b.Answer

def evaluator_calls : Signature where
  Op := Call
  Answer := Call.Answer

/-- Programs of the evaluator. -/
abbrev P (α : Type) : Type := Program (state_ops.withCalls evaluator_calls) α

def op (o : Op) : P o.Answer := perform (S := state_ops.withCalls evaluator_calls) (.inl o)

def call (c : Call) : P c.Answer := perform (S := state_ops.withCalls evaluator_calls) (.inr c)

def get : P Eval := op .get

def set (ev : Eval) : P Unit := op (.set ev)

/-- A write to fields of `ev`. -/
def modify (f : Eval → Eval) : P Unit := get >>= fun ev => set (f ev)

def env_new (parent : Option Env) (is_def : Bool) : P Env := op (.env_new parent is_def)
def env_nearest_def (env : Env) : P (Option Env) := op (.env_nearest_def env)
def env_get (env : Env) (name : String) : P (Option Value) := op (.env_get env name)
def env_get_method (env : Env) (name : String) : P (Option Value) := op (.env_get_method env name)
def env_get_own (env : Env) (name : String) : P (Option Value) := op (.env_get_own env name)
def env_update (env : Env) (name : String) (val : Value) : P Bool := op (.env_update env name val)
def env_set (env : Env) (name : String) (val : Value) : P Unit := op (.env_set env name val)
def env_define (env : Env) (name : String) (val : Value) : P Unit := op (.env_define env name val)
def env_vars (env : Env) (suffix : String) : P (List (String × Value)) := op (.env_vars env suffix)
def env_block_arg (env : Env) : P (Option Value) := op (.env_block_arg env)
def set_block_arg (env : Env) (blk : Option Value) : P Unit := op (.set_block_arg env blk)
def slip : P Unit := op .slip

def eval_node (env : Env) (node : Option Node) : P Value := call (.eval_node env node)
def assign_target (env : Env) (target : Node) (val : Value) : P Unit := call (.assign_target env target val)
def match_pattern (env binding_env : Env) (val : Value) (pat : Option Node) : P Bool :=
  call (.match_pattern env binding_env val pat)
def bind_pattern (env : Env) (pattern : Node) (val : Value) : P Unit := call (.bind_pattern env pattern val)
def call_method_value (recv method : Value) (owner : Option Ref) (name : String) (args : List Value)
    (blk : Option Value) (site : Option Span) : P Value :=
  call (.call_method_value recv method owner name args blk site)
def call_block (blk : Value) (args : List Value) (call_site : Option Span) : P Value :=
  call (.call_block blk args call_site)
def dispatch_method (send : Send) : P Value := call (.dispatch_method send)

/-- A built-in that answers a text or a flag. -/
def builtin (b : Builtin) : P b.Answer := do
  let before ← get
  let answer ← call (.builtin b)
  op (.kept before)
  return answer

/-- A built-in that answers a value, or nothing when the call is not its own. -/
def builtin_value (b : Builtin) (value : b.Answer → Option Value) : P (Option Value) := do
  let answer ← call (.builtin b)
  op (.returned ((value answer).getD .nil))
  return value answer

def val_to_s (v : Value) : P String := builtin (.val_to_s v)
def val_inspect (v : Value) : P String := builtin (.val_inspect v)
def val_responds_to (recv : Value) (name : String) (include_private : Bool) : P Bool :=
  builtin (.val_responds_to recv name include_private)
def regex_compile (pattern : String) (options : UInt32) : P (Option String) :=
  builtin (.regex_compile pattern options)
def arithmetic (env : Env) (op : String) (left right : Value) (site : Option Span) : P (Option Value) :=
  builtin_value (.arithmetic env op left right site) id
def array_subscript (recv : Value) (method : String) (args : List Value) (site : Option Span) :
    P (Option Value) := builtin_value (.array_subscript recv method args site) id
def other_builtin_kernel (env : Env) (name : String) (args : List Value) (blk : Option Value)
    (site : Option Span) : P Value := do
  return (← builtin_value (.builtin_kernel env name args blk site) some).getD .nil
def dispatch_builtin (stage : BuiltinStage) (send : Send) : P (Option Value) :=
  builtin_value (.dispatch stage send) id

end stoned
