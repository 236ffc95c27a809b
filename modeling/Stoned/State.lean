import Stoned.Env

namespace stoned

def EVAL_MAX_DEPTH : Nat := 512

structure EvalFrame where
  line : UInt32
  col : UInt32
  label : String

/-- The evaluator's own fields, with the heaps its values live in. The stacks
`frames` and `active_defs` hold their newest entry first. -/
structure Eval where
  globals : List (String × Value)
  top_env : Env
  out : String
  call_depth : Int
  errored : Bool
  errmsg : String
  current_exception : Value
  rescue_context : Value
  exception_line : UInt32
  exception_col : UInt32
  exception_class : Option String
  exception_msg : String
  frames : List EvalFrame
  active_defs : List Env
  current_file : Option String
  arrays : List RubyArray
  hashes : List RubyHash
  classes : List RubyClass
  objects : List RubyObject

/-- All a run depends on: the evaluator, the environments and what the outside
world is still to deliver (input, clock, random numbers). -/
structure State where
  ev : Eval
  envs : EnvHeap
  host : List String

/-- Truncation to what fits a `char[size]` buffer. -/
def fit (size : Nat) (text : String) : String := String.ofList (text.toList.take (size - 1))

/-- The two copies of an exception in flight agree that there is none. -/
structure Eval.Idle (ev : Eval) : Prop where
  exception_msg : ev.exception_msg = ""
  exception_class : ev.exception_class = none

/-- An exception is in flight: all three of its fields are set. -/
structure Eval.Pending (ev : Eval) : Prop where
  exception_msg : ev.exception_msg ≠ ""
  exception_class : ev.exception_class ≠ none
  current_exception : ev.current_exception.kind = .object

end stoned
