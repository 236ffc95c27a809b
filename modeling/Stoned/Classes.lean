import Stoned.Params

namespace stoned

open program

/-! Method lookup in the class graph (eval_support.c). -/

/-- `env_get_own` of a frame that may be missing. -/
def get_own (env : Option Env) (name : String) : P (Option Value) :=
  match env with
  | some env => env_get_own env name
  | none => return none

/-- A method `env_get` finds from a frame that may be missing. -/
def get_method_from (env : Option Env) (name : String) : P (Option Value) :=
  match env with
  | some env => env_get_method env name
  | none => return none

def ruby_class_find_instance_method (klass : Ref) (name : String) : P (Option (Value × Option Ref)) :=
  call (.ruby_class_find_instance_method klass name)

/-- The first of a list of modules to answer. -/
def find_in_modules (name : String) : List Ref → P (Option (Value × Option Ref))
  | [] => return none
  | mod :: rest => do
    match ← ruby_class_find_instance_method mod name with
    | some found => return some found
    | none => find_in_modules name rest

/-- One class of the walk: its prepended modules, itself, its included modules.
An undefined method ends the search without an owner. -/
def find_instance_step (k : Ref) (name : String) : P (Option (Value × Option Ref)) := do
  let klass := (← get).klass k
  match ← find_in_modules name klass.prepended_modules with
  | some found => return some found
  | none =>
    match ← get_own klass.class_env name with
    | some (.method def_node closure visibility def_file) =>
      return some (.method def_node closure visibility def_file, some k)
    | some .undef_method => return some (.undef_method, none)
    | _ => find_in_modules name klass.included_modules

def find_instance_walk (name : String) : List Ref → P (Option (Value × Option Ref))
  | [] => return none
  | k :: rest => do
    match ← find_instance_step k name with
    | some found => return some found
    | none => if ((← get).klass k).is_module then return none else find_instance_walk name rest

def find_instance_body (klass : Ref) (name : String) : P (Option (Value × Option Ref)) := do
  find_instance_walk name ((← get).superclasses (some klass))

def ruby_class_find_super_method_inner (klass after : Ref) (seen_after : Bool) (name : String) :
    P (Bool × Option (Value × Ref)) :=
  call (.ruby_class_find_super_method_inner klass after seen_after name)

/-- The first of a list of modules to answer a super lookup, with the flag
threaded through the ones that do not. -/
def super_in_modules (after : Ref) (name : String) : Bool → List Ref → P (Bool × Option (Value × Ref))
  | seen_after, [] => return (seen_after, none)
  | seen_after, mod :: rest => do
    match ← ruby_class_find_super_method_inner mod after seen_after name with
    | (seen_after, some found) => return (seen_after, some found)
    | (seen_after, none) => super_in_modules after name seen_after rest

/-- One class of the walk. Unlike `find_instance_step` it looks a method up
through the class's enclosing frames. -/
def find_super_step (k after : Ref) (seen_after : Bool) (name : String) :
    P (Bool × Option (Value × Ref)) := do
  let klass := (← get).klass k
  match ← super_in_modules after name seen_after klass.prepended_modules with
  | (seen_after, some found) => return (seen_after, some found)
  | (seen_after, none) =>
    match ← (if seen_after then get_method_from klass.class_env name else return none) with
    | some method => return (seen_after, some (method, k))
    | none => super_in_modules after name (seen_after || k == after) klass.included_modules

def find_super_walk (after : Ref) (name : String) : Bool → List Ref → P (Bool × Option (Value × Ref))
  | seen_after, [] => return (seen_after, none)
  | seen_after, k :: rest => do
    match ← find_super_step k after seen_after name with
    | (seen_after, some found) => return (seen_after, some found)
    | (seen_after, none) =>
      if ((← get).klass k).is_module then return (seen_after, none)
      else find_super_walk after name seen_after rest

def find_super_body (klass after : Ref) (seen_after : Bool) (name : String) :
    P (Bool × Option (Value × Ref)) := do
  find_super_walk after name seen_after ((← get).superclasses (some klass))

def ruby_class_find_super_method (start after : Ref) (name : String) : P (Option (Value × Ref)) := do
  return (← ruby_class_find_super_method_inner start after false name).2

def ruby_class_get_direct_class_method (klass : Ref) (name : String) : P (Option Value) := do
  return only_method (← get_own ((← get).klass klass).class_env ("self." ++ name))

def find_class_method_walk (name : String) : List Ref → P (Option (Value × Option Ref))
  | [] => return none
  | k :: rest => do
    match ← ruby_class_get_direct_class_method k name with
    | some method => return some (method, some k)
    | none =>
      match ← find_in_modules name ((← get).klass k).extended_modules with
      | some found => return some found
      | none => find_class_method_walk name rest

def ruby_class_find_class_method (klass : Ref) (name : String) : P (Option (Value × Option Ref)) := do
  find_class_method_walk name ((← get).superclasses (some klass))

/-- The modules a class is extended with, in a super lookup: before the caller
has been passed they are searched for it, behind it for the method. -/
def class_super_in_modules (after : Ref) (name : String) :
    Bool → List Ref → P (Bool × Option (Value × Option Ref))
  | seen_after, [] => return (seen_after, none)
  | true, mod :: rest => do
    match ← ruby_class_find_instance_method mod name with
    | some found => return (true, some found)
    | none => class_super_in_modules after name true rest
  | false, mod :: rest => do
    match ← ruby_class_find_super_method_inner mod after false name with
    | (seen_after, some (method, owner)) => return (seen_after, some (method, some owner))
    | (seen_after, none) => class_super_in_modules after name seen_after rest

def find_class_super_walk (after : Ref) (name : String) :
    Bool → List Ref → P (Bool × Option (Value × Option Ref))
  | seen_after, [] => return (seen_after, none)
  | seen_after, k :: rest => do
    match ← (if seen_after then ruby_class_get_direct_class_method k name else return none) with
    | some method => return (seen_after, some (method, some k))
    | none =>
      match ← class_super_in_modules after name (seen_after || k == after) ((← get).klass k).extended_modules with
      | (seen_after, some found) => return (seen_after, some found)
      | (seen_after, none) => find_class_super_walk after name seen_after rest

def ruby_class_find_class_super_method (start after : Ref) (name : String) :
    P (Option (Value × Option Ref)) := do
  return (← find_class_super_walk after name false ((← get).superclasses (some start))).2

/-- The class a constant of the top-level environment names. -/
def top_class (name : String) : P (Option Ref) := do
  match ← env_get (← get).top_env name with
  | some (.klass k) => return some k
  | _ => return none

def class_is_a_named_class (klass : Ref) (class_name : String) : P Bool := do
  match ← top_class class_name with
  | none => return false
  | some target =>
    let ev ← get
    return (ev.superclasses (some klass)).any fun k => k == target || (ev.klass k).name == class_name

def value_is_a_named_class (v : Value) (class_name : String) : P Bool := do
  match v with
  | .object obj =>
    match (← get).class_of_object obj with
    | some k => class_is_a_named_class k class_name
    | none => return false
  | _ => return false

/-- Whether the pending exception belongs to a class, compared by name. -/
def exception_is_a (klass : Value) : P Bool := do
  let ev ← get
  match klass, ev.current_exception with
  | .klass k, .object obj =>
    return (ev.superclasses (ev.class_of_object obj)).any fun c => (ev.klass c).name == (ev.klass k).name
  | _, _ => return false

def value_singleton_env (recv : Value) : P (Option Env) := do
  let ev ← get
  match recv with
  | .object o => return (ev.object o).singleton_env
  | .array a => return (ev.array a).singleton_env
  | .hash h => return (ev.hash h).singleton_env
  | _ => return none

def set_singleton_env (recv : Value) (env : Env) : P Unit :=
  match recv with
  | .object o => modify fun ev =>
    { ev with objects := ev.objects.modify o fun object => { object with singleton_env := some env } }
  | .array a => modify fun ev =>
    { ev with arrays := ev.arrays.modify a fun array => { array with singleton_env := some env } }
  | .hash h => modify fun ev =>
    { ev with hashes := ev.hashes.modify h fun hash => { hash with singleton_env := some env } }
  | _ => return ()

def has_singleton_slot : Value → Bool
  | .object _ | .array _ | .hash _ => true
  | _ => false

def prim_class_name (ev : Eval) : Value → String
  | .int _ => "Integer"
  | .float _ => "Float"
  | .string .. => "String"
  | .symbol _ => "Symbol"
  | .array _ => "Array"
  | .hash _ => "Hash"
  | .range .. => "Range"
  | .nil => "NilClass"
  | .bool true => "TrueClass"
  | .bool false => "FalseClass"
  | .klass _ => "Class"
  | .method .. => "Method"
  | .block .. => "Proc"
  | .object o => match ev.class_of_object o with
    | some k => (ev.klass k).name
    | none => "Object"
  | _ => "Object"

/-- The class name messages use. -/
def value_class_name (v : Value) : P String := do
  let ev ← get
  match v with
  | .klass k => return (ev.klass k).name
  | _ =>
    if val_is_signal v then
      match ← top_class (val_kind_name v.kind) with
      | some k => return (ev.klass k).name
      | none => return val_kind_name v.kind
    else return prim_class_name ev v

/-- The class of a value; a class of its own when the constant is missing. -/
def val_class_of (v : Value) : P Value := do
  let ev ← get
  match v with
  | .object o => return (ev.object o).klass
  | _ =>
    let kname := match v with
      | .klass k => if (ev.klass k).is_module then "Module" else "Class"
      | _ => prim_class_name ev v
    match ← top_class kname with
    | some k => return .klass k
    | none =>
      let stub ← val_class kname none
      let class_env ← env_new (some (← get).top_env) true
      set_class stub fun k => { k with class_env := some class_env }
      return .klass stub

def class_inherits_from (ev : Eval) (klass target : Ref) : Bool :=
  (ev.superclasses (some klass)).contains target

def method_visibility_allows_call (env : Env) (recv : Value) (owner : Option Ref)
    (visibility : MethodVisibility) (public_only : Bool) (explicit_receiver : Int) : P Bool := do
  if explicit_receiver < 0 then return true
  match visibility with
  | .method_public => return true
  | .method_private =>
    if public_only then return false
    match ← env_get env "self" with
    | none => return false
    | some current_self => if current_self.kind = recv.kind then val_equal current_self recv else return false
  | .method_protected =>
    if public_only then return false
    match ← env_get env "self", recv, owner with
    | some (.object caller), .object r, some owner =>
      let ev ← get
      match ev.class_of_object caller, ev.class_of_object r with
      | some caller_class, some recv_class =>
        return class_inherits_from ev caller_class owner && class_inherits_from ev recv_class owner
      | _, _ => return false
    | _, _, _ => return false

/-- A name an instance method is only an alias of: a built-in's. -/
def find_instance_alias_name (name : String) : List Ref → P (Option String)
  | [] => return none
  | k :: rest => do
    let klass := (← get).klass k
    match klass.class_env with
    | none => find_instance_alias_name name rest
    | some class_env =>
      match ← env_get_own class_env name with
      | some (.symbol target) =>
        if target ≠ "" then return some target
        else if klass.is_module then return none else find_instance_alias_name name rest
      | some (.string target ..) =>
        if target ≠ "" then return some target
        else if klass.is_module then return none else find_instance_alias_name name rest
      | _ => if klass.is_module then return none else find_instance_alias_name name rest

end stoned
