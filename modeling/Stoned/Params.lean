import Stoned.Raise

namespace stoned

open program

/-! Parameters and destructuring patterns (eval_support.c). -/

def is_splat : Node → Bool
  | .param _ _ _ splat _ _ _ => splat
  | _ => false

/-- Index of the last splat among the elements of a pattern. -/
def splat_index (elements : List Node) : Option Nat :=
  (List.range elements.length).reverse.find? fun i => (elements[i]?).any is_splat

/-- What a splat at `idx` of a pattern with `len` elements collects. A value
that is no array counts as an array of itself at the front only. -/
def destructured_rest (len idx : Nat) (val : Value) (array : Option (List Value)) : List Value :=
  let tail_count := len - idx - 1
  let available := match array with
    | some elems => elems.length
    | none => if idx = 0 then 1 else 0
  let rest_end := available - tail_count
  (List.range' idx (rest_end - idx)).map fun j =>
    match array with
    | some elems => elems.getD j .nil
    | none => if j = 0 then val else .nil

/-- What an element at `idx` that is no splat receives. -/
def destructured_elem (len idx : Nat) (splat : Option Nat) (val : Value) (array : Option (List Value)) :
    Value :=
  if splat.any (· < idx) then
    let tail_offset := len - idx
    match array with
    | some elems => if tail_offset ≤ elems.length then elems.getD (elems.length - tail_offset) .nil else .nil
    | none => .nil
  else
    match array with
    | some elems => elems.getD idx .nil
    | none => if idx = 0 then val else .nil

def array_elems (val : Value) : P (Option (List Value)) := do
  match val with
  | .array a => return some ((← get).elems a)
  | _ => return none

/-- Hands each element of a pattern its part of the value, from the left. The
value is looked at again for each of them. -/
def destructure (bind : Node → Value → P Unit) (elements : List Node) (val : Value) :
    Nat → List Node → P Unit
  | _, [] => return ()
  | idx, element :: rest => do
    let array ← array_elems val
    if is_splat element then
      bind element (← val_array_of (destructured_rest elements.length idx val array))
    else
      bind element (destructured_elem elements.length idx (splat_index elements) val array)
    destructure bind elements val (idx + 1) rest

def bind_pattern_body (env : Env) (pattern : Node) (val : Value) : P Unit := do
  match pattern with
  | .param _ (some name) .. => env_define env name val
  | .array _ elements => destructure (bind_pattern env) elements val 0 elements
  | _ => return ()

/-- A parameter that an argument must be given for. -/
def is_required_param : Node → Bool
  | .param _ _ default_val splat block_param keyword_param keyword_splat =>
    !splat && !block_param && default_val.isNone && !keyword_splat && !keyword_param
  | .array .. => true
  | _ => false

def count_required_params (params : List Node) : Nat := params.countP is_required_param

/-- A parameter that takes one positional argument. -/
def is_positional_param : Node → Bool
  | .param _ _ _ splat block_param keyword_param keyword_splat =>
    !splat && !block_param && !keyword_param && !keyword_splat
  | .array .. => true
  | _ => false

def count_total_params (params : List Node) : Nat := params.countP is_positional_param

def has_kwarg_params (params : List Node) : Bool :=
  params.any fun
    | .param _ _ _ _ _ keyword_param keyword_splat => keyword_param || keyword_splat
    | _ => false

mutual

def node_has_splat : Node → Bool
  | .param _ _ _ splat _ _ _ => splat
  | .array _ elements => has_splat_param elements
  | _ => false
termination_by structural node => node

def has_splat_param : List Node → Bool
  | [] => false
  | p :: rest => node_has_splat p || has_splat_param rest
termination_by structural params => params

end

def is_block_param : Node → Bool
  | .param _ _ _ _ block_param _ _ => block_param
  | _ => false

def count_bindable_params (params : List Node) : Nat := params.countP fun p => !is_block_param p

/-- The keyword arguments, nil if there are none, and the arguments left for
the positional parameters: a trailing hash counts as keywords when the list
declares any. -/
def extract_kwargs (params : List Node) (args : List Value) : Option Ref × List Value :=
  match has_kwarg_params params, args.getLast? with
  | true, some (.hash h) => (some h, args.dropLast)
  | _, _ => (none, args)

/-- The parameters behind the splat that take an argument from the back. -/
def post_splat_required (params : List Node) : Nat :=
  match params.dropWhile (fun p => !is_splat p) with
  | [] => 0
  | _ :: rest => rest.countP fun p => !is_splat p && is_required_param p

/-- Binds the positional parameters from the argument `argi` on. -/
def bind_positional (env : Env) (args : List Value) (post : Nat) : Nat → List Node → P Unit
  | _, [] => return ()
  | argi, p :: rest => do
    match p with
    | .param _ _ default_val splat block_param keyword_param keyword_splat =>
      if block_param then
        bind_pattern env p ((← op (.env_own_block_arg env)).getD .nil)
        bind_positional env args post argi rest
      else if keyword_param || keyword_splat then
        bind_positional env args post argi rest
      else if splat then
        let splat_end := max argi (args.length - post)
        bind_pattern env p (← val_array_of ((args.take splat_end).drop argi))
        bind_positional env args post splat_end rest
      else
        match args[argi]?, default_val with
        | some arg, _ => bind_pattern env p arg
        | none, some default_val => do
          goes_on
          bind_pattern env p (← eval_node env (some default_val))
        | none, none => bind_pattern env p .nil
        bind_positional env args post (argi + 1) rest
    | _ =>
      bind_pattern env p (args.getD argi .nil)
      bind_positional env args post (argi + 1) rest

def kwargs_pairs : Option Ref → P (List (Value × Value))
  | some h => return ((← get).hash h).pairs
  | none => return []

/-- Binds the keyword parameters and returns the names taken from the hash, or
nothing when a default did not evaluate or a keyword is missing. -/
def bind_keywords (env : Env) (kwargs : Option Ref) : List String → List Node → P (Option (List String))
  | consumed, [] => return some consumed
  | consumed, p :: rest => do
    match p with
    | .param _ (some kname) default_val _ _ true _ =>
      let pairs ← kwargs_pairs kwargs
      match hash_get_symbol kname pairs, default_val with
      | some kval, _ =>
        env_define env kname kval
        bind_keywords env kwargs (if consumed.length < 64 then consumed ++ [kname] else consumed) rest
      | none, some default_val =>
        goes_on
        let kval ← eval_node env (some default_val)
        if (← get).errored || val_is_signal kval then return none
        env_define env kname kval
        bind_keywords env kwargs consumed rest
      | none, none =>
        let _ ← eval_raise_class none "ArgumentError" ("missing keyword: " ++ kname)
        return none
    | _ => bind_keywords env kwargs consumed rest

def is_consumed (consumed : List String) : Value → Bool
  | .symbol name => consumed.contains name
  | _ => false

def unknown_keyword : Value → String
  | .symbol name => "unknown keyword: :" ++ name
  | _ => "unknown keyword"

/-- `**opts`, or the complaint about keywords nothing took. -/
def bind_kwrest (env : Env) (params : List Node) (kwargs : Option Ref) (consumed : List String) : P Unit := do
  let pairs ← kwargs_pairs kwargs
  let rest := pairs.filter fun pair => !is_consumed consumed pair.1
  match params.find? fun
      | .param _ _ _ _ _ _ keyword_splat => keyword_splat
      | _ => false with
  | some (.param _ name ..) =>
    let rest_hash ← val_hash_new
    val_hash_set_all rest_hash rest
    match name with
    | some name => env_define env name (.hash rest_hash)
    | none => return ()
  | _ =>
    match rest with
    | [] => return ()
    | (key, _) :: _ =>
      let _ ← eval_raise_class none "ArgumentError" (unknown_keyword key)

def bind_params (env : Env) (params : List Node) (args : List Value) : P Unit := do
  let (kwargs, positional) := extract_kwargs params args
  bind_positional env positional (post_splat_required params) 0 params
  match ← bind_keywords env kwargs [] params with
  | none => return ()
  | some consumed => bind_kwrest env params kwargs consumed

def proc_arity (params : List Node) (is_lambda : Bool) : Int :=
  let required := count_required_params params
  let has_optional := params.any fun
    | .param _ _ default_val _ _ _ _ => default_val.isSome
    | _ => false
  if has_splat_param params || (is_lambda && has_optional) then -(required + 1) else required

end stoned
