import Stoned.Dispatch

namespace stoned

open program

/-! Constant names and their lookup (eval.c). -/

def has_prefix (start text : String) : Bool := start.toList.isPrefixOf text.toList

/-- Splits at each `::`, from the left. -/
def split_colons : List Char → List Char → List String
  | acc, [] => [String.ofList acc.reverse]
  | acc, ':' :: ':' :: rest => String.ofList acc.reverse :: split_colons [] rest
  | acc, c :: rest => split_colons (c :: acc) rest

def without_root (name : String) : String :=
  if has_prefix "::" name then String.ofList (name.toList.drop 2) else name

def const_segments (name : String) : List String := split_colons [] name.toList

/-- The part of a qualified name before its last `::`, if there is one, and
the part behind it. -/
def split_const_path (full_name : String) : Option String × String :=
  match (const_segments (without_root full_name)).reverse with
  | [] => (none, "")
  | [leaf] => (none, leaf)
  | leaf :: parents => (some ("::".intercalate parents.reverse), leaf)

def qualify_const_name (scope leaf : String) : String := if scope = "" then leaf else scope ++ "::" ++ leaf

def cvar_key (name : String) : String := "@@" ++ name

/-- The first class of a chain whose frame, or one enclosing it, binds a name. -/
def find_in_class_envs (name : String) : List Ref → P (Option (Ref × Value))
  | [] => return none
  | k :: rest => do
    match ((← get).klass k).class_env with
    | none => find_in_class_envs name rest
    | some class_env =>
      match ← env_get class_env name with
      | some v => return some (k, v)
      | none => find_in_class_envs name rest

def lookup_const_head (env : Option Env) (name : String) : P Value := call (.lookup_const_head env name)

/-- Looks a constant up in a class and then in the classes its name is
qualified with. -/
def lookup_in_scopes (name : String) : Nat → Ref → P (Option Value)
  | 0, _ => .halt
  | fuel + 1, scope => do
    let ev ← get
    match ← find_in_class_envs name (ev.superclasses (some scope)) with
    | some (_, v) => return some v
    | none =>
      match (const_segments (ev.klass scope).name).reverse with
      | _ :: parent :: rest =>
        match ← lookup_const_head none ("::".intercalate (parent :: rest).reverse) with
        | .klass outer => lookup_in_scopes name fuel outer
        | _ => return none
      | _ => return none

/-- The class whose code is running, from the frame's `__class__`. -/
def current_class (env : Option Env) : P (Option Ref) := do
  match env with
  | none => return none
  | some env =>
    match ← env_get env "__class__" with
    | some (.klass k) => return some k
    | _ => return none

/-- A qualified constant of the top level that ends in the name and starts with
the class's own name. -/
def lookup_qualified (env : Option Env) (name : String) : P Value := do
  let entries ← env_vars (← get).top_env ("::" ++ name)
  match ← current_class env with
  | none => return .nil
  | some k =>
    let class_name := ((← get).klass k).name
    match entries.find? fun e =>
        name.length + 2 < e.1.length && class_name.length + 2 + name.length ≤ e.1.length &&
          has_prefix class_name e.1 with
    | some (_, v) => return v
    | none => return .nil

def lookup_const_head_body (fuel : Nat) (env : Option Env) (name : String) : P Value := do
  let in_scope ← match ← current_class env with
    | some scope => lookup_in_scopes name fuel scope
    | none => pure none
  match in_scope with
  | some v => return v
  | none =>
    match ← env_get (← get).top_env name with
    | some v => return v
    | none => lookup_qualified env name

def lookup_const_on_class (current : Value) (part : String) : P Value := do
  match current with
  | .klass k =>
    match ← find_in_class_envs part ((← get).superclasses (some k)) with
    | some (_, found) => return found
    | none => return .nil
  | _ => return .nil

/-- Follows the segments of a path behind its head. -/
def lookup_const_parts : Value → List String → P Value
  | current, [] => return current
  | current, part :: rest => do
    if 256 ≤ part.length then return .nil
    match current with
    | .klass k =>
      let ev ← get
      if (ev.klass k).class_env.isNone then return .nil
      match ← find_in_class_envs part (ev.superclasses (some k)) with
      | some (_, found) => lookup_const_parts found rest
      | none => return .nil
    | _ => return .nil

def lookup_const_path (env : Env) (name : String) : P Value := do
  match const_segments (without_root name) with
  | [] => return .nil
  | [head] => lookup_const_head (some env) head
  | head :: parts =>
    if 256 ≤ head.length then return .nil
    match ← lookup_const_head (some env) head with
    | .nil => return .nil
    | current => lookup_const_parts current parts

end stoned
