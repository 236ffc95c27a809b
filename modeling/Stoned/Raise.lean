import Stoned.Heap

namespace stoned

open program

/-! Raising and clearing exceptions (eval_support.c). -/

def format_exception_summary (class_name msg : String) : String :=
  let cls_len := class_name.length
  let max_msg := 512 - cls_len - 3
  -- a class name that leaves no room gives a negative precision, which does not cut
  fit 512 (class_name ++ ": " ++ if cls_len ≤ 509 then fit (max_msg + 1) msg else msg)

def exception_value_class_name (ev : Eval) (exc : Value) : String :=
  match exc with
  | .object obj =>
    match ev.class_of_object obj with
    | some k => (ev.klass k).name
    | none => "RuntimeError"
  | _ => "RuntimeError"

def exception_value_message (exc : Value) : P String := do
  match ← val_object_get_ivar exc "message" with
  | some msg => val_to_s msg
  | none => return exception_value_class_name (← get) exc

/-- `ivar` of an exception as a position, zero when there is none. -/
def exception_value_position (ivar : String) (exc : Value) : P UInt32 := do
  match ← val_object_get_ivar exc ivar with
  | some (.int i) => return i.toUInt64.toUInt32
  | _ => return 0

def backtrace_line (frame : EvalFrame) : String :=
  fit 256 (toString frame.line ++ ":" ++ toString frame.col ++ ":in " ++ "\x60" ++ frame.label ++ "\x60")

def build_exception_object (klass : Value) (msg : String) : P Value := do
  let exc ← val_object klass
  val_object_set_ivar exc "message" (val_string (c_string msg))
  let backtrace ← val_array_of ((← get).frames.map fun frame => val_string (backtrace_line frame))
  val_object_set_ivar exc "backtrace" backtrace
  return exc

def build_exception (class_name msg : String) : P Value := do
  let top_env := (← get).top_env
  match ← env_get top_env class_name with
  | some (.klass k) => build_exception_object (.klass k) msg
  | _ => build_exception_object ((← env_get top_env "RuntimeError").getD .nil) msg

def set_exception_origin (exc : Value) (site : Option Span) : P Unit :=
  match site with
  | none => return ()
  | some span => do
    val_object_set_ivar exc "line" (.int (.ofNat span.line.toNat))
    val_object_set_ivar exc "col" (.int (.ofNat span.col.toNat))

def set_exception_position (site : Option Span) (ev : Eval) : Eval :=
  match site with
  | none => ev
  | some span => { ev with exception_line := span.line, exception_col := span.col }

def eval_error (n : Option Span) (message : String) : P Value := do
  if (← get).errored then return .nil
  let tmp := fit 480 message
  let errmsg := match n with
    | some span => fit 512 (toString span.line ++ ":" ++ toString span.col ++ ": " ++ tmp)
    | none => tmp
  modify fun ev => { ev with errored := true, errmsg }
  return .nil

/-- A new exception with its cause and origin. -/
def new_exception (n : Option Span) (class_name raw_msg : String) : P Value := do
  let exc ← build_exception class_name raw_msg
  match (← get).rescue_context with
  | .object obj => val_object_set_ivar exc "__cause__" (.object obj)
  | _ => pure ()
  set_exception_origin exc n
  return exc

/-- Raises an exception of a named class, unless a message is still pending. -/
def eval_raise_class (n : Option Span) (class_name message : String) : P Value := do
  if (← get).exception_msg = "" then
    let raw_msg := fit 512 message
    let exc ← new_exception n class_name raw_msg
    modify fun ev => set_exception_position n { ev with
      exception_class := some class_name
      current_exception := exc
      exception_msg := format_exception_summary class_name raw_msg }
  return .exception

/-- Raises an exception object, unless a message is still pending. -/
def eval_raise_value (n : Option Span) (exc : Value) : P Value := do
  if (← get).exception_msg = "" then
    match (← get).rescue_context, exc with
    | .object cause, .object obj =>
      match ← val_object_get_ivar (.object obj) "__cause__" with
      | none | some .nil => val_object_set_ivar exc "__cause__" (.object cause)
      | some _ => pure ()
    | _, _ => pure ()
    let class_name := exception_value_class_name (← get) exc
    let message ← exception_value_message exc
    let line ← exception_value_position "line" exc
    let col ← exception_value_position "col" exc
    modify fun ev => { ev with
      current_exception := exc
      exception_class := some class_name
      exception_msg := fit 512 (class_name ++ ": " ++ message)
      exception_line := line
      exception_col := col }
    if line = 0 ∨ col = 0 then
      modify (set_exception_position n)
      set_exception_origin exc n
  return .exception

def eval_clear_exception : P Unit :=
  modify fun ev => { ev with
    current_exception := .nil
    exception_line := 0
    exception_col := 0
    exception_class := none
    exception_msg := "" }

/-- `ev->errored = 0; ev->exception_class = NULL; ev->exception_msg[0] = '\0'`:
drops a failed attempt at a method, all but its exception object. -/
def drop_exception : P Unit :=
  modify fun ev => { ev with errored := false, exception_class := none, exception_msg := "" }

/-- Marks that the source goes on evaluating where an exception may already be
in flight. -/
def goes_on : P Unit := do
  if (← get).exception_class.isSome then slip

/-- What the CHECK macro tests: a value evaluation does not go on behind. -/
def stops (v : Value) : P Bool := return (← get).errored || val_is_signal v

/-- The CHECK macro: an ordinary value goes on, anything else is returned. -/
def check (v : Value) (rest : P Value) : P Value := do
  if ← stops v then return v else rest

end stoned
