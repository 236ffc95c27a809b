import Stoned.Begin

namespace stoned

open program

/-! Loops (eval.c, NODE_WHILE, NODE_UNTIL and NODE_FOR; eval_dispatch.c, loop). -/

/-- Evaluates a loop's condition and continues, or ends the loop. -/
def loop_test (until_ : Bool) (env : Env) (cond : Node) (rest : P Value) : P Value := do
  let c ← eval_node env (some cond)
  check c <| if val_truthy c != until_ then rest else return .nil

/-- `while` and `until`, with the test before or behind the body. -/
def eval_while (until_ : Bool) (env : Env) (cond : Node) (body : Option Node) (post_test : Bool) : Nat → P Value
  | 0 => .halt
  | fuel + 1 =>
    let turn : P Value := do
      match ← eval_node env body with
      | .brk wrapped => return wrapped
      | .ret wrapped target_env => return .ret wrapped target_env
      | .exception => return .exception
      | _ =>
        if post_test then loop_test until_ env cond (eval_while until_ env cond body post_test fuel)
        else eval_while until_ env cond body post_test fuel
    if post_test then turn else loop_test until_ env cond turn

/-- One turn of a `for`: either the loop is done with a result, or its result so
far. -/
def for_turn (env : Env) (target : Node) (body : Option Node) (item : Value) : P (Value ⊕ Value) := do
  assign_target env target item
  goes_on
  match ← eval_node env body with
  | .brk wrapped => return .inl wrapped
  | .ret wrapped target_env => return .inl (.ret wrapped target_env)
  | .exception => return .inl .exception
  | .next _ => return .inr .nil
  | result => return .inr result

/-- `for` over an array, whose length is looked at before each turn. -/
def for_array (env : Env) (target : Node) (body : Option Node) (array : Ref) : Nat → Nat → Value → P Value
  | 0, _, _ => .halt
  | fuel + 1, i, result => do
    match ((← get).elems array)[i]? with
    | none => return result
    | some item =>
      match ← for_turn env target body item with
      | .inl result => return result
      | .inr result => for_array env target body array fuel (i + 1) result

/-- `for` over the integers from `i` up to `hi`. -/
def for_range (env : Env) (target : Node) (body : Option Node) (hi : Int64) (exclusive : Bool) :
    Nat → Int64 → Value → P Value
  | 0, _, _ => .halt
  | fuel + 1, i, result => do
    if if exclusive then i < hi else i ≤ hi then
      match ← for_turn env target body (.int i) with
      | .inl result => return result
      | .inr result => for_range env target body hi exclusive fuel (i + 1) result
    else return result

def eval_for (fuel : Nat) (env : Env) (span : Span) (target iterable : Node) (body : Option Node) : P Value := do
  let iterable ← eval_node env (some iterable)
  check iterable do
    match iterable with
    | .array a => for_array env target body a fuel 0 .nil
    | .range (.int lo) (.int hi) exclusive => for_range env target body hi exclusive fuel lo .nil
    | .range .. => eval_raise_class (some span) "TypeError" "for loop requires an Integer range"
    | _ =>
      match ← dispatch_method { env, recv := iterable, name := "to_a", site := some span } with
      | .array a => for_array env target body a fuel 0 .nil
      | ary =>
        let message := "no implicit conversion of " ++ val_kind_name iterable.kind ++ " into Array"
        if val_is_signal ary then return ary
        else eval_raise_class (some span) "TypeError" message

/-- Kernel#loop. A StopIteration ends it with nil. -/
def kernel_loop (blk : Value) (site : Option Span) : Nat → P Value
  | 0 => .halt
  | fuel + 1 => do
    match ← call_block blk [] site with
    | .exception =>
      if ← value_is_a_named_class (← get).current_exception "StopIteration" then
        eval_clear_exception
        return .nil
      else return .exception
    | .brk wrapped => return wrapped
    | .ret wrapped target_env => return .ret wrapped target_env
    | _ => kernel_loop blk site fuel

end stoned
