import Stoned.CallNode

namespace stoned

open program

/-! super (eval.c, NODE_SUPER). -/

/-- The method a bare `super` stands in, found again under its name: a class
method first when self is a class, then whatever the class's frames bind. -/
def enclosing_method (self : Value) (class_env : Option Env) (method_name : String) : P (Option Value) := do
  let class_method ← match self with
    | .klass _ => pure (only_method (← get_own class_env ("self." ++ method_name)))
    | _ => pure none
  match class_method with
  | some method => return some method
  | none => get_method_from class_env method_name

/-- The name of a parameter a bare `super` passes on. -/
def forwarded_name : Node → Option String
  | .param _ name _ _ block_param keyword_param keyword_splat =>
    if block_param || keyword_param || keyword_splat then none else name
  | _ => none

/-- The current values of the parameters, as far as the buffer goes. -/
def forwarded_args (env : Env) : List Value → List Node → P (List Value)
  | done, [] => return done
  | done, p :: rest => do
    if MAX_ARGS ≤ done.length then return done
    match forwarded_name p with
    | none => forwarded_args env done rest
    | some name =>
      match ← env_get env name with
      | some pval => forwarded_args env (done ++ [pval]) rest
      | none => forwarded_args env done rest

/-- The explicit arguments of `super`, or the signal one evaluates to. -/
def eval_super_args (env : Env) : List Value → List Node → P (Value ⊕ List Value)
  | done, [] => return .inr done
  | done, arg :: rest => do
    if MAX_ARGS ≤ done.length then return .inr done
    let a ← eval_node env (some arg)
    if ← stops a then return .inl a
    eval_super_args env (done ++ [a]) rest

def super_args (env : Env) (self : Value) (cur_class : Ref) (method_name : String) (args : List Node)
    (forward_args : Bool) : P (Value ⊕ List Value) := do
  if forward_args then
    match ← enclosing_method self ((← get).klass cur_class).class_env method_name with
    | some (.method (.def_ _ _ _ params _) ..) => return .inr (← forwarded_args env [] params)
    -- the source reads a def's parameters out of whatever the method was made from
    | some _ => .halt
    | none => return .inr []
  else eval_super_args env [] args

/-- The method behind the running one, in the order of the receiver's class. -/
def find_super (self : Value) (cur_class : Ref) (method_name : String) : P (Option (Value × Option Ref)) := do
  match self with
  | .object o =>
    match (← get).class_of_object o with
    | some klass =>
      match ← ruby_class_find_super_method klass cur_class method_name with
      | some (method, owner) => return some (method, some owner)
      | none => return none
    | none => return none
  | .klass k => ruby_class_find_class_super_method k cur_class method_name
  | _ => return none

def eval_super (env : Env) (span : Span) (args : List Node) (forward_args : Bool) : P Value := do
  match ← env_get env "self", ← env_get env "__class__", ← env_get env "__method__" with
  | some self, some (.klass cur_class), some method_name =>
    match self.kind, text_of method_name with
    | .object, some method_name | .klass, some method_name =>
      match ← super_args env self cur_class method_name args forward_args with
      | .inl signal => return signal
      | .inr super_args =>
        match ← find_super self cur_class method_name with
        | some (method, owner) =>
          let blk ← env_block_arg env
          call_method_value self method owner method_name super_args blk (some span)
        | none =>
          if self.kind = .object && method_name = "initialize" then return self
          else
            eval_raise_class (some span) "NoMethodError"
              ("super: no superclass method '" ++ method_name ++ "'")
    | .object, none | .klass, none => .halt
    | _, _ => eval_raise_class (some span) "NoMethodError" "super called outside of instance method"
  | _, _, _ => eval_raise_class (some span) "NoMethodError" "super called outside of instance method"

end stoned
