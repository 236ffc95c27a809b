import Stoned.Assign

namespace stoned

open program

/-! Pattern matching (eval.c). -/

/-- A signal from a pattern counts as no match, and takes its exception along. -/
def no_match (signal : Value) : P Bool := do
  if signal.kind = .exception then slip
  eval_clear_exception
  return false

/-- Sends the value of a pattern a test and takes the answer's truth. -/
def matches_by (env : Env) (recv : Value) (name : String) (arg : Value) (site : Option Span) : P Bool := do
  let result ← dispatch_method { env, recv, name, args := [arg], site }
  if val_is_signal result then no_match result else return val_truthy result

def elem_of (array : Ref) (i : Nat) : P Value := return ((← get).elems array).getD i .nil

/-- Matches consecutive elements of an array from `ai` on. -/
def match_elements (env binding_env : Env) (array : Ref) : Nat → List Node → P Bool
  | _, [] => return true
  | ai, pat :: rest => do
    if ← match_pattern env binding_env (← elem_of array ai) (some pat) then
      match_elements env binding_env array (ai + 1) rest
    else return false

/-- Binds a name, if there is one, to a new array of a stretch of elements. -/
def bind_stretch (binding_env : Env) (name : Option String) (array : Ref) (start stop : Nat) : P Unit := do
  match name with
  | none => return ()
  | some name =>
    let elems := (((← get).elems array).take stop).drop start
    env_define binding_env name (← val_array_of elems)

def define_all (env : Env) : List (String × Value) → P Unit
  | [] => return ()
  | (name, val) :: rest => do
    env_define env name val
    define_all env rest

/-- The find pattern: tries each start in turn, binding into a frame of its own
that is copied once a start matches. -/
def find_pattern (env binding_env : Env) (array : Ref) (elems : List Node) (arr_len : Nat)
    (rest_name pre_rest_name : Option String) : List Nat → P Bool
  | [] => return false
  | start :: later => do
    let trial ← env_new (some env) false
    if ← match_elements env trial array start elems then
      define_all binding_env (← env_vars trial "")
      bind_stretch binding_env pre_rest_name array 0 start
      bind_stretch binding_env rest_name array (start + elems.length) arr_len
      return true
    else find_pattern env binding_env array elems arr_len rest_name pre_rest_name later

def match_array (env binding_env : Env) (array : Ref) (elems : List Node) (has_rest has_pre_rest : Bool)
    (rest_name pre_rest_name : Option String) : P Bool := do
  let arr_len := ((← get).elems array).length
  let nreq := elems.length
  if has_pre_rest && has_rest && 0 < nreq then
    if arr_len < nreq then return false
    find_pattern env binding_env array elems arr_len rest_name pre_rest_name
      (List.range (arr_len - nreq + 1))
  else if !has_pre_rest then
    if !has_rest && nreq ≠ arr_len then return false
    if has_rest && arr_len < nreq then return false
    if ← match_elements env binding_env array 0 elems then
      if has_rest then bind_stretch binding_env rest_name array nreq arr_len
      return true
    else return false
  else if !has_rest then
    if arr_len < nreq then return false
    if ← match_elements env binding_env array (arr_len - nreq) elems then
      bind_stretch binding_env pre_rest_name array 0 (arr_len - nreq)
      return true
    else return false
  else return false

def match_array_pattern (env binding_env : Env) (val : Value) (span : Span) (elems : List Node)
    (has_rest has_pre_rest : Bool) (rest_name pre_rest_name : Option String) : P Bool := do
  let arr ← match val with
    | .array a => pure (Value.array a)
    | _ => dispatch_method { env, recv := val, name := "deconstruct", site := some span }
  match arr with
  | .array a => match_array env binding_env a elems has_rest has_pre_rest rest_name pre_rest_name
  | arr => if val_is_signal arr then no_match arr else return false

/-- The key and value patterns of a hash pattern, which alternate in the list. -/
def pattern_pairs : List Node → List (Node × Node)
  | key :: val_pat :: rest => (key, val_pat) :: pattern_pairs rest
  | _ => []

def key_text : Node → String
  | .symbol _ sval | .string _ sval | .lvar _ sval | .const _ sval => sval
  | _ => ""

def requested_key : Node → Value
  | .symbol _ sval => .symbol sval
  | _ => .nil

def is_bare_capture : Node → Bool
  | .pattern_capture _ none _ => true
  | _ => false

def match_pairs (env binding_env : Env) (hash : Ref) : List (Node × Node) → P Bool
  | [] => return true
  | (key, val_pat) :: rest => do
    match hash_get_symbol (key_text key) ((← get).hash hash).pairs with
    | none =>
      if is_bare_capture val_pat then match_pairs env binding_env hash rest else return false
    | some hval =>
      if ← match_pattern env binding_env hval (some val_pat) then
        match_pairs env binding_env hash rest
      else return false

def is_matched_key (keys : List Node) : Value → Bool
  | .symbol name => keys.any fun key => key_text key == name
  | _ => false

def match_hash_pattern (env binding_env : Env) (val : Value) (span : Span) (elems : List Node)
    (has_rest : Bool) (rest_name : Option String) : P Bool := do
  let pairs := pattern_pairs elems
  let h ← match val with
    | .hash h => pure (Value.hash h)
    | _ =>
      let keys_arr ← val_array_of (pairs.map fun pair => requested_key pair.1)
      dispatch_method {
        env, recv := val, name := "deconstruct_keys"
        args := [if has_rest then .nil else keys_arr], site := some span }
  match h with
  | .hash h =>
    if ← match_pairs env binding_env h pairs then
      match has_rest, rest_name with
      | true, some name =>
        let rest ← val_hash_new
        val_hash_set_all rest
          (((← get).hash h).pairs.filter fun pair => !is_matched_key (pairs.map Prod.fst) pair.1)
        env_define binding_env name (.hash rest)
        return true
      | _, _ => return true
    else return false
  | h => if val_is_signal h then no_match h else return false

def match_pattern_body (env binding_env : Env) (val : Value) (pat : Option Node) : P Bool := do
  match pat with
  | none => return true
  | some pat =>
    match pat with
    | .nil _ => return val.kind = .nil
    | .true _ => return match val with
      | .bool b => b
      | _ => false
    | .false _ => return match val with
      | .bool b => !b
      | _ => false
    | .int _ ival => return match val with
      | .int i => i = ival
      | _ => false
    | .float _ fval => return match val with
      | .float f => f == fval
      | _ => false
    | .string _ sval => return match val with
      | .string s .. => s = sval
      | _ => false
    | .symbol _ sval => return match val with
      | .symbol s => s = sval
      | _ => false
    | .rope span rope =>
      let sv ← eval_node env (some (.rope span rope))
      if val_is_signal sv then no_match sv
      else return match val, sv with
        | .string s .., .string t .. => c_string s = c_string t
        | _, _ => false
    | .const span _ | .const_access span .. =>
      let klass ← eval_node env (some pat)
      if val_is_signal klass then no_match klass
      else match klass with
        | .klass k => matches_by env val "is_a?" (.klass k) (some span)
        | _ => return false
    | .range span .. =>
      match ← eval_node env (some pat) with
      | .range b e exclusive => matches_by env (.range b e exclusive) "===" val (some span)
      | range => no_match range
    | .pattern_array span elems has_rest has_pre_rest rest_name pre_rest_name =>
      match_array_pattern env binding_env val span elems has_rest has_pre_rest rest_name pre_rest_name
    | .pattern_hash span elems has_rest rest_name =>
      match_hash_pattern env binding_env val span elems has_rest rest_name
    | .pattern_capture _ pattern name =>
      if ← match_pattern env binding_env val pattern then
        match name with
        | some name =>
          env_define binding_env name val
          return true
        | none => return true
      else return false
    | .pattern_pin _ sval =>
      match ← env_get env sval with
      | some pinned => val_equal val pinned
      | none => return false
    | .pattern_or _ left right =>
      if ← match_pattern env binding_env val (some left) then return true
      else match_pattern env binding_env val (some right)
    | pat =>
      let pv ← eval_node env (some pat)
      if val_is_signal pv then no_match pv
      else matches_by env pv "===" val (some pat.span)

end stoned
