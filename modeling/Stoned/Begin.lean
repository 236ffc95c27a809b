import Stoned.Pattern

namespace stoned

open program

/-! begin / rescue / else / ensure (eval.c, NODE_BEGIN). -/

/-- A path of constants, which is looked up without running any code when the
constants exist. -/
def is_const_path : Node → Bool
  | .const .. => true
  | .const_access _ recv _ => is_const_path recv
  | _ => false

/-- Whether one of a clause's classes is a class of the pending exception. A
class that does not evaluate is skipped and the exception put back. -/
def class_matches (env : Env) : List Node → P Bool
  | [] => return false
  | cl :: rest => do
    if !is_const_path cl then slip
    let saved ← get
    let rescue_class ← eval_node env (some cl)
    if val_is_signal rescue_class then
      modify fun ev => { ev with
        current_exception := saved.current_exception
        exception_class := saved.exception_class
        errored := saved.errored }
      class_matches env rest
    else if ← exception_is_a rescue_class then return true
    else class_matches env rest

/-- The frame a rescue body runs in: a child frame that holds the exception
when the clause names it. -/
def enter_rescue (env : Env) (exception_var : Option String) (rescued_exc : Value) : P Env := do
  match exception_var with
  | none => return env
  | some name =>
    let rescue_env ← env_new (some env) false
    env_set rescue_env name rescued_exc
    return rescue_env

/-- Runs the body of a clause that matches, with the exception cleared. -/
def run_rescue (env : Env) (exception_var : Option String) (body : Option Node) : P Value := do
  let ev ← get
  let rescued_exc := ev.current_exception
  let previous_rescue := ev.rescue_context
  let previous_dollar_bang := (← global_get "!").getD .nil
  eval_clear_exception
  modify fun ev => { ev with rescue_context := rescued_exc }
  global_set "!" rescued_exc
  let rescue_env ← enter_rescue env exception_var rescued_exc
  let result ← eval_node rescue_env body
  modify fun ev => { ev with rescue_context := previous_rescue }
  global_set "!" previous_dollar_bang
  return result

/-- The result of the first clause that matches, if one does. -/
def try_rescues (env : Env) : List Node → P (Option Value)
  | [] => return none
  | .rescue_ _ exception_classes exception_var body :: rest => do
    let matched ← if exception_classes.isEmpty then pure true else class_matches env exception_classes
    if matched then return some (← run_rescue env exception_var body) else try_rescues env rest
  | _ :: rest => try_rescues env rest

/-- Runs the body, and again after each `retry`. Returns the result with
whether a clause was ever entered. -/
def attempts (env : Env) (body : Option Node) (rescues : List Node) : Nat → Bool → P (Value × Bool)
  | 0, _ => .halt
  | fuel + 1, rescued => do
    match ← eval_node env body with
    | .exception =>
      match ← try_rescues env rescues with
      | none => return (.exception, rescued)
      | some .retry => attempts env body rescues fuel true
      | some result => return (result, true)
    | result => return (result, rescued)

/-- Puts the exception back that was in flight before an ensure body. -/
def restore_exception (saved : Eval) (ev : Eval) : Eval :=
  { ev with
    current_exception := saved.current_exception
    exception_class := saved.exception_class
    exception_msg := saved.exception_msg
    exception_line := saved.exception_line
    exception_col := saved.exception_col }

def run_ensure (env : Env) (ensure_body : Node) (result : Value) : P Value := do
  let saved ← get
  eval_clear_exception
  let ensure_result ← eval_node env (some ensure_body)
  if val_is_signal ensure_result then return ensure_result
  if result.kind = .exception then modify (restore_exception saved)
  return result

def eval_begin (fuel : Nat) (env : Env) (body : Option Node) (rescues : List Node)
    (else_body ensure_body : Option Node) : P Value := do
  let (result, rescued) ← attempts env body rescues fuel false
  let result ←
    if result.kind ≠ .exception && !rescued && else_body.isSome then eval_node env else_body
    else pure result
  match ensure_body with
  | some ensure_body => run_ensure env ensure_body result
  | none => return result

end stoned
