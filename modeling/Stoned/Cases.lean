import Stoned.Operators

namespace stoned

open program

/-! case/when and case/in (eval.c, NODE_CASE and NODE_PATCASE). -/

/-- Whether one of a clause's patterns matches, or the signal one evaluates to.
Without a subject a pattern matches when it is true. -/
def when_matches (env : Env) (span : Span) (subject : Option Value) : List Node → P (Value ⊕ Bool)
  | [] => return .inr false
  | pattern :: rest => do
    let pat ← eval_node env (some pattern)
    if ← stops pat then return .inl pat
    match subject with
    | none => if val_truthy pat then return .inr true else when_matches env span subject rest
    | some value =>
      let result ← dispatch_method { env, recv := pat, name := "===", args := [value], site := some span }
      if ← stops result then return .inl result
      if val_truthy result then return .inr true else when_matches env span subject rest

def try_whens (env : Env) (span : Span) (subject : Option Value) (else_body : Option Node) :
    List Node → P Value
  | [] =>
    match else_body with
    | some else_body => eval_node env (some else_body)
    | none => return .nil
  | .when_ _ patterns body :: rest => do
    match ← when_matches env span subject patterns with
    | .inl signal => return signal
    | .inr true => eval_node env body
    | .inr false => try_whens env span subject else_body rest
  | _ :: rest => try_whens env span subject else_body rest

def eval_case (env : Env) (span : Span) (subject : Option Node) (whens : List Node)
    (else_body : Option Node) : P Value := do
  match subject with
  | none => try_whens env span none else_body whens
  | some subject =>
    let subject ← eval_node env (some subject)
    check subject (try_whens env span (some subject) else_body whens)

/-- Whether a guard lets the clause run. A signal counts as no. -/
def guard_allows (binding_env : Env) (guard : Option Node) : P Bool := do
  match guard with
  | none => return true
  | some guard =>
    let g ← eval_node binding_env (some guard)
    if g.kind = .exception then slip
    return !val_is_signal g && val_truthy g

/-- Runs the body of a clause that matched, in the frame that holds what it
captured. The captures are copied into the surrounding frame first. -/
def run_in (env binding_env : Env) (body : Option Node) : P Value := do
  define_all env (← env_vars binding_env "")
  eval_node binding_env body

def try_ins (env : Env) (span : Span) (subject : Value) (else_body : Option Node) : List Node → P Value
  | [] => do
    match else_body with
    | some else_body => eval_node env (some else_body)
    | none =>
      eval_raise_class (some span) "NoMatchingPatternError"
        ("NoMatchingPatternError (" ++ (← val_inspect subject) ++ ")")
  | .in_ _ pattern guard body :: rest => do
    let binding_env ← env_new (some env) false
    if ← match_pattern env binding_env subject pattern then
      if ← guard_allows binding_env guard then run_in env binding_env body
      else try_ins env span subject else_body rest
    else try_ins env span subject else_body rest
  | _ :: rest => try_ins env span subject else_body rest

def eval_patcase (env : Env) (span : Span) (subject : Node) (ins : List Node) (else_body : Option Node) :
    P Value := do
  let subject ← eval_node env (some subject)
  check subject (try_ins env span subject else_body ins)

end stoned
