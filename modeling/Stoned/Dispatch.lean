import Stoned.Invoke

namespace stoned

open program

/-! From a receiver and a name to the method that runs (eval_dispatch.c). -/

def protected_message (name class_name : String) : String :=
  "protected method '" ++ name ++ "' called for an instance of " ++ class_name

def private_message (name class_name : String) : String :=
  "private method '" ++ name ++ "' called for an instance of " ++ class_name

/-- Calls a method found for the receiver of `send`. -/
def send_to (send : Send) (method : Value) (owner : Option Ref) : P Value :=
  call_method_value send.recv method owner send.name send.args send.blk send.site

def method_visibility : Value → MethodVisibility
  | .method _ _ visibility _ => visibility
  | _ => .method_public

def allows_call (send : Send) (method : Value) (owner : Option Ref) : P Bool :=
  method_visibility_allows_call send.env send.recv owner (method_visibility method) send.public_only
    send.explicit_receiver

/-- The entry the class of a receiver, or a class itself, has for a name. -/
def find_hook (recv : Value) (hook : String) : P (Option (Value × Option Ref)) := do
  match recv with
  | .object o =>
    match (← get).class_of_object o with
    | some k => ruby_class_find_instance_method k hook
    | none => return none
  | .klass k => ruby_class_find_class_method k hook
  | _ =>
    match ← val_class_of recv with
    | .klass k => ruby_class_find_instance_method k hook
    | _ => return none

def dispatch_method_missing (send : Send) : P Value := do
  match ← find_hook send.recv "method_missing" with
  | some (method, owner) =>
    call_method_value send.recv method owner "method_missing" (.symbol send.name :: send.args.take 64)
      send.blk send.site
  | none =>
    eval_raise_class send.site "NoMethodError"
      ("undefined method '" ++ send.name ++ "' for " ++ prim_class_name (← get) send.recv)

/-- The complaint of public_send about a method that is not public. -/
def public_send_refusal (send : Send) (mname : String) : P Value := do
  match (← find_hook send.recv mname).map Prod.fst with
  | some (.method _ _ .method_protected _) =>
    eval_raise_class send.site "NoMethodError" (protected_message mname (← value_class_name send.recv))
  | some (.method _ _ .method_private _) =>
    eval_raise_class send.site "NoMethodError" (private_message mname (← value_class_name send.recv))
  | _ =>
    eval_raise_class send.site "NoMethodError"
      ("undefined method '" ++ mname ++ "' for " ++ val_kind_name send.recv.kind)

/-- send, __send__ and public_send. -/
def dispatch_dynamic_send (send : Send) (public_only : Bool) : P Value := do
  match send.args with
  | [] => eval_raise_class send.site "ArgumentError" (send.name ++ " requires a method name")
  | target :: args =>
    let mname := match target with
      | .symbol name => some name
      | .string name .. => some name
      | _ => none
    match mname with
    | none =>
      eval_raise_class send.site "TypeError" (send.name ++ ": method name must be a symbol or string")
    | some mname =>
      let refused ←
        if public_only then
          if ← val_responds_to send.recv mname false then pure false
          else val_responds_to send.recv mname true
        else pure false
      if refused then public_send_refusal send mname
      else
        dispatch_method { send with
          name := mname, args, public_only, explicit_receiver := if public_only then 0 else -1 }

/-- The class a primitive's methods may be reopened in. -/
def primitive_class_name : Value → Option String
  | .string .. => some "String"
  | .int _ => some "Integer"
  | .float _ => some "Float"
  | .array _ => some "Array"
  | .hash _ => some "Hash"
  | .range .. => some "Range"
  | .symbol _ => some "Symbol"
  | .nil => some "NilClass"
  | .bool true => some "TrueClass"
  | .bool false => some "FalseClass"
  | _ => none

def kernel_names_on_nil : List String :=
  ["puts", "print", "p", "pp", "warn", "require", "require_relative", "raise",
   "lambda", "proc", "loop", "rand", "srand", "open", "exit", "exit!", "abort", "format", "sprintf", "printf",
   "sleep", "catch", "throw", "trap", "at_exit", "\x60",
   "system", "spawn", "wait", "waitpid", "load"]

def builtin_kernel (env : Env) (name : String) (args : List Value) (blk : Option Value)
    (site : Option Span) : P Value :=
  call (.builtin_kernel env name args blk site)

/-- Continues with `rest` where a stage of the dispatch found nothing. -/
def or_else (stage : P (Option Value)) (rest : P Value) : P Value := do
  match ← stage with
  | some v => return v
  | none => rest

/-- A method of the receiver's own singleton frame. -/
def dispatch_singleton (send : Send) : P (Option Value) := do
  match ← value_singleton_env send.recv with
  | none => return none
  | some singleton_env =>
    match ← env_get_method singleton_env send.name with
    | none => return none
    | some method =>
      let ev ← get
      let owner := match send.recv with
        | .object o => ev.class_of_object o
        | _ => none
      if ← allows_call send method owner then return some (← send_to send method owner)
      else if method_visibility method = .method_protected then
        return some (← eval_raise_class send.site "NoMethodError"
          (protected_message send.name (← value_class_name send.recv)))
      else return none

/-- An instance method that is only another name of a built-in. -/
def dispatch_alias (send : Send) (klass : Ref) : P (Option Value) := do
  match ← find_instance_alias_name send.name ((← get).superclasses (some klass)) with
  | some target =>
    if target ≠ send.name then return some (← dispatch_method { send with name := target })
    else return none
  | none => return none

/-- A method of an object's class, before any built-in. -/
def dispatch_user_method (send : Send) (klass : Ref) : P (Option Value) := do
  match ← ruby_class_find_instance_method klass send.name with
  | none => return none
  | some (.undef_method, _) =>
    return some (← eval_raise_class send.site "NoMethodError"
      ("undefined method '" ++ send.name ++ "' for an instance of " ++ (← value_class_name send.recv)))
  | some (method, owner) =>
    if ← allows_call send method owner then return some (← send_to send method owner)
    else
      match method_visibility method with
      | .method_protected =>
        return some (← eval_raise_class send.site "NoMethodError"
          (protected_message send.name (← value_class_name send.recv)))
      | .method_private =>
        return some (← eval_raise_class send.site "NoMethodError"
          (private_message send.name (← value_class_name send.recv)))
      | .method_public => return none

/-- What only objects answer before the built-ins every value has. -/
def dispatch_object_first (send : Send) : P (Option Value) := do
  match send.recv with
  | .object o =>
    match (← get).class_of_object o with
    | none => return none
    | some klass =>
      match ← dispatch_alias send klass with
      | some v => return some v
      | none =>
        match ← dispatch_builtin .enumerator send with
        | some v => return some v
        | none => dispatch_user_method send klass
  | _ => return none

/-- What every value answers: send in its forms, Proc#call and the built-ins. -/
def dispatch_common (send : Send) : P (Option Value) := do
  match ← dispatch_builtin .common send with
  | some v => return some v
  | none =>
    if send.name = "send" || send.name = "__send__" then return some (← dispatch_dynamic_send send false)
    else if send.name = "public_send" then return some (← dispatch_dynamic_send send true)
    else
      match send.recv with
      | .block .. =>
        if send.name = "call" || send.name = "[]" then
          return some (← call_block send.recv send.args send.site)
        else return none
      | _ => return none

/-- A method defined directly on the reopened class of a primitive. -/
def dispatch_reopened (send : Send) : P (Option Value) := do
  match primitive_class_name send.recv with
  | none => return none
  | some prim_class =>
    match ← top_class prim_class with
    | none => return none
    | some klass =>
      match only_method (← get_own ((← get).klass klass).class_env send.name) with
      | some method => return some (← send_to send method (some klass))
      | none => return none

def alias_target : Option Value → Option String
  | some (.symbol target) => some target
  | some (.string target ..) => some target
  | _ => none

/-- An alias or an inherited method of the class of a primitive. -/
def dispatch_primitive_alias (send : Send) : P (Option Value) := do
  match primitive_class_name send.recv with
  | none => return none
  | some prim_class =>
    match ← top_class prim_class with
    | none => return none
    | some klass =>
      match (alias_target (← get_own ((← get).klass klass).class_env send.name)).filter (· ≠ send.name) with
      | some target =>
        match ← dispatch_builtin .primitive { send with name := target } with
        | some v => return some v
        | none => return some (← dispatch_method { send with name := target })
      | none =>
        match ← ruby_class_find_instance_method klass send.name with
        | some (.method def_node closure visibility def_file, owner) =>
          return some (← send_to send (.method def_node closure visibility def_file) owner)
        | _ => return none

def dispatch_nil_kernel (send : Send) : P (Option Value) := do
  match send.recv with
  | .nil =>
    if kernel_names_on_nil.contains send.name then
      return some (← builtin_kernel send.env send.name send.args send.blk send.site)
    else return none
  | _ => return none

/-- A method of the class of a value that is neither an object nor a class. -/
def dispatch_value_class (send : Send) : P (Option Value) := do
  match send.recv with
  | .object _ | .klass _ => return none
  | _ =>
    match ← val_class_of send.recv with
    | .klass klass =>
      match ← ruby_class_find_instance_method klass send.name with
      | some (method, owner) =>
        if ← allows_call send method owner then return some (← send_to send method owner)
        else if method_visibility method = .method_protected then
          return some (← eval_raise_class send.site "NoMethodError"
            (protected_message send.name (← value_class_name send.recv)))
        else return none
      | none => return none
    | _ => return none

def refusal (send : Send) (method : Value) : P Value := do
  eval_raise_class send.site "NoMethodError" <|
    (if method_visibility method = .method_protected then protected_message else private_message)
      send.name (← value_class_name send.recv)

/-- A class's built-ins, then its own class methods. -/
def dispatch_class (send : Send) : P (Option Value) := do
  match send.recv with
  | .klass klass =>
    match ← dispatch_builtin .klass send with
    | some v => return some v
    | none =>
      match ← ruby_class_find_class_method klass send.name with
      | some (.method def_node closure visibility def_file, owner) =>
        let method := Value.method def_node closure visibility def_file
        if ← allows_call send method owner then return some (← send_to send method owner)
        else return some (← refusal send method)
      | _ => return none
  | _ => return none

/-- The methods of an object's classes, one superclass after another. -/
def dispatch_object_classes (send : Send) : List Ref → P (Option Value)
  | [] => return none
  | klass :: rest => do
    match ← ruby_class_find_instance_method klass send.name with
    | some (method, owner) =>
      if ← allows_call send method owner then return some (← send_to send method owner)
      else return some (← refusal send method)
    | none => dispatch_object_classes send rest

/-- An object's built-ins, its singleton methods and its class's. -/
def dispatch_object (send : Send) : P (Option Value) := do
  match send.recv with
  | .object o =>
    match ← dispatch_builtin .object send with
    | some v => return some v
    | none =>
      let singleton ← match ((← get).object o).singleton_env with
        | some env => env_get_method env send.name
        | none => pure none
      match singleton with
      | some method =>
        let owner := (← get).class_of_object o
        if ← allows_call send method owner then return some (← send_to send method owner)
        else return some (← refusal send method)
      | none =>
        let ev ← get
        match ← dispatch_object_classes send (ev.superclasses (ev.class_of_object o)) with
        | some v => return some v
        | none => dispatch_builtin .string_subclass send
  | _ => return none

def dispatch_method_body (send : Send) : P Value :=
  or_else (dispatch_singleton send) <|
  or_else (dispatch_object_first send) <|
  or_else (dispatch_common send) <|
  or_else (dispatch_reopened send) <|
  or_else (dispatch_builtin .primitive send) <|
  or_else (dispatch_primitive_alias send) <|
  or_else (dispatch_nil_kernel send) <|
  or_else (dispatch_builtin .nil_bool send) <|
  or_else (dispatch_value_class send) <|
  or_else (dispatch_class send) <|
  or_else (dispatch_object send) <|
  if send.name ≠ "method_missing" then dispatch_method_missing send
  else do
    eval_raise_class send.site "NoMethodError"
      ("undefined method '" ++ send.name ++ "' for " ++ prim_class_name (← get) send.recv)

end stoned
