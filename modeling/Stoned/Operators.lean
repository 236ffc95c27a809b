import Stoned.Define

namespace stoned

open program

/-! Operators (eval.c; eval_dispatch.c, eval_binop) and interpolated strings (eval_support.c). -/

/-- The string `left + right` makes, whose right side may be converted. -/
def string_plus (env : Env) (span : Span) (sval : String) (enc : StringEncodingTag) (right : Value) : P Value := do
  match right with
  | .string rhs .. => return .string (sval ++ rhs) false enc
  | right =>
    match ← dispatch_method { env, recv := right, name := "to_str", site := some span, explicit_receiver := -1 } with
    | .string rhs .. => return .string (sval ++ rhs) false enc
    | _ =>
      -- a failed conversion is replaced by the TypeError
      drop_exception
      eval_raise_class (some span) "TypeError"
        ("no implicit conversion of " ++ (← value_class_name right) ++ " into String")

/-- A number operator with a Complex or Rational on its right. -/
def is_rational_operand (ev : Eval) (op : String) (left right : Value) : Bool :=
  match left, right with
  | .int _, .object o | .float _, .object o =>
    match ev.class_of_object o with
    | some k =>
      ((ev.klass k).name = "Complex" || (ev.klass k).name = "Rational") && ["+", "-", "*", "/"].contains op
    | none => false
  | _, _ => false

/-- An operator handed to the left side as a method. -/
def send_operator (env : Env) (span : Span) (op : String) (left_node : Node) (left right : Value) : P Value := do
  let op_result ← dispatch_method { env, recv := left, name := op, args := [right], site := some span }
  if (← get).errored then
    modify fun ev => { ev with errored := false }
    eval_raise_class (some span) "NoMethodError"
      ("undefined operator '" ++ op ++ "' for " ++ val_kind_name left.kind)
  else
    if is_string op_result && (op = "<<" || op = "concat") then update_receiver env left_node op_result
    return op_result

/-- A binary operator on two values. -/
def apply_binop (env : Env) (span : Span) (op : String) (left_node : Node) (left right : Value) : P Value := do
  match op, left, right with
  | "+", .string sval _ enc, right => string_plus env span sval enc right
  | "+", .array a, .array b =>
    let ev ← get
    val_array_of (ev.elems a ++ ev.elems b)
  | "<<", .array a, right =>
    if ((← get).array a).frozen then
      eval_raise_class (some span) "FrozenError" "can't modify frozen Array"
    else
      val_array_push a right
      return .array a
  | _, _, _ =>
    if op = "==" || op = "!=" || is_rational_operand (← get) op left right then
      dispatch_method { env, recv := left, name := op, args := [right], site := some span }
    else
      match ← arithmetic env op left right (some span) with
      | some result => return result
      | none => send_operator env span op left_node left right

def eval_binop (env : Env) (span : Span) (op : String) (left_node right_node : Node) : P Value := do
  let left ← eval_node env (some left_node)
  check left do
    if op = "&&" || op = "and" then
      if val_truthy left then eval_node env (some right_node) else return left
    else if op = "||" || op = "or" then
      if val_truthy left then return left else eval_node env (some right_node)
    else
      let right ← eval_node env (some right_node)
      check right (apply_binop env span op left_node left right)

/-- The binary operator of a compound assignment. -/
def base_operator (raw_op : String) : String :=
  if raw_op.toList.getLast? = some '=' then String.ofList raw_op.toList.dropLast else raw_op

/-- `target op= value`. What goes wrong in the assignment itself is not looked at. -/
def eval_op_assign (env : Env) (span : Span) (op : String) (left right : Node) : P Value := do
  let val ← eval_binop env span (base_operator op) left right
  check val do
    match left with
    | .lvar _ name => assign_lvar env name val
    | target =>
      assign_target env target val
      goes_on
    return val

/-- `target = value`. -/
def eval_assign (env : Env) (target value : Node) : P Value := do
  let val ← eval_node env (some value)
  check val do
    let exc_before := (← get).exception_class
    assign_target env target val
    if (← get).exception_class ≠ exc_before then return .exception else return val

/-- A unary operator's method. A signal is dropped and leads to `rest`. -/
def send_unary (env : Env) (span : Span) (operand : Value) (name : String) (rest : P Value) : P Value := do
  let r ← dispatch_method { env, recv := operand, name, site := some span }
  if val_is_signal r then
    if r.kind = .exception then slip
    drop_exception
    rest
  else return r

def negate : Value → Value
  | .int i => .int (-i)
  | .float f => .float (-f)
  | v => v

/-- The class to build the negation of a built-in Complex with. -/
def complex_class_of (operand : Value) : P (Option Ref) := do
  match operand with
  | .object o =>
    let ev ← get
    match ev.class_of_object o with
    | some k => if (ev.klass k).name = "Complex" then top_class "Complex" else return none
    | none => return none
  | _ => return none

/-- `-operand` for anything that is no number. -/
def negate_value (env : Env) (span : Span) (operand : Value) (rest : P Value) : P Value := do
  match ← complex_class_of operand with
  | some complex =>
    let real_v := (← val_object_get_ivar operand "real").getD .nil
    let imag_v := (← val_object_get_ivar operand "imaginary").getD .nil
    dispatch_method {
      env, recv := .klass complex, name := "new", args := [negate real_v, negate imag_v], site := some span }
  | none => send_unary env span operand "-@" rest

def eval_unop (env : Env) (span : Span) (op : String) (operand : Node) : P Value := do
  let operand ← eval_node env (some operand)
  let undefined := eval_raise_class (some span) "NoMethodError" ("undefined unary operator '" ++ op ++ "'")
  check operand do
    match op, operand with
    | "!", operand | "not", operand => return .bool (!val_truthy operand)
    | "-", .int i => return .int (-i)
    | "-", .float f => return .float (-f)
    | "-", operand => negate_value env span operand undefined
    | "+", .int i => return .int i
    | "+", .float f => return .float f
    | "+", operand => send_unary env span operand "+@" (return operand)
    | "~", .int i => return .int (~~~i)
    | "~", operand => send_unary env span operand "~" undefined
    | _, _ => undefined

/-- The text of an embedded expression's value. -/
def rope_text (env : Env) (v : Value) : P String := do
  match v.kind with
  | .object | .klass =>
    match ← dispatch_method { env, recv := v, name := "to_s", site := none } with
    | .string sval .. => return sval
    | ts =>
      if ts.kind = .exception then slip
      val_to_s v
  | _ => val_to_s v

/-- Appends the text of a rope. An expression that does not evaluate to a value
adds nothing, and the parts behind it are still evaluated. -/
def rope_collect (env : Env) (text : String) : RopeNode Node → P String
  | .lit bytes => return text ++ bytes
  | .expr node => do
    let v ← eval_node env (some node)
    if ← stops v then
      if v.kind = .exception then slip
      return text
    return text ++ c_string (← rope_text env v)
  | .cat left right => do rope_collect env (← rope_collect env text left) right

def eval_rope (env : Env) (rope : RopeNode Node) : P Value := do
  let s ← rope_collect env "" rope
  if (← get).errored then return .nil else return val_string (c_string s)

end stoned
