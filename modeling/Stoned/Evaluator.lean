import Stoned.Node

namespace stoned

open program

/-- What the built-ins do: programs like the evaluator's own functions, which
may call the evaluator. -/
def Builtins : Type := (b : Builtin) → P b.Answer

/-- The body of each function of the evaluator. The bound is on the turns of
its own loops. -/
def evaluator (builtins : Builtins) : Procedures state_ops evaluator_calls := fun fuel call =>
  match call with
  | .val_equal a b => val_equal_body a b
  | .eval_node env node => eval_node_body fuel env node
  | .assign_target env target val => assign_target_body env target val
  | .match_pattern env binding_env val pat => match_pattern_body env binding_env val pat
  | .lookup_const_head env name => lookup_const_head_body fuel env name
  | .ruby_class_find_instance_method klass name => find_instance_body klass name
  | .ruby_class_find_super_method_inner klass after seen_after name =>
    find_super_body klass after seen_after name
  | .bind_pattern env pattern val => bind_pattern_body env pattern val
  | .call_method_value recv method owner name args blk site =>
    call_method_value_body recv method owner name args blk site
  | .call_block blk args call_site => call_block_body blk args call_site
  | .dispatch_method send => dispatch_method_body send
  | .builtin_kernel env name args blk site => builtin_kernel_body fuel env name args blk site
  | .builtin b => builtins b

/-- The machine on which the evaluator runs, with calls nested at most `depth`
deep. -/
abbrev Builtins.machine (builtins : Builtins) (depth : Nat) :
    Machine (state_ops.withCalls evaluator_calls) State :=
  (evaluator builtins).machine state_machine depth

/-- A call runs the body of its function, one level deeper. -/
theorem run_call (builtins : Builtins) (depth : Nat) (c : Call) (s : State) :
    (call c).run (builtins.machine (depth + 1)) s =
      (evaluator builtins depth c).run (builtins.machine depth) s :=
  run_perform (S := state_ops.withCalls evaluator_calls) (.inr c) s

/-- The machine on which calls are answered at will: every outcome the parts of
a construct can have is the outcome under some answers. -/
abbrev answering (answers : Oracle evaluator_calls State) :
    Machine (state_ops.withCalls evaluator_calls) State := state_machine.withCalls answers

section
variable (answers : Oracle evaluator_calls State) (s : State)

theorem run_get : get.run (answering answers) s = some (s.ev, s) := rfl

theorem run_modify (f : Eval → Eval) :
    (modify f).run (answering answers) s = some ((), { s with ev := f s.ev }) := rfl

theorem run_stops (v : Value) :
    (stops v).run (answering answers) s = some (s.ev.errored || val_is_signal v, s) := rfl

end

/-- Evaluation goes on behind a value. -/
def GoesOn (v : Value) (s : State) : Prop := (s.ev.errored || val_is_signal v) = false

/-- Work that is only done behind a value is done. -/
theorem run_goes_on {α : Type} {answers : Oracle evaluator_calls State} {p : P Value} {s t : State} {v : Value}
    (hrun : p.run (answering answers) s = some (v, t)) (hgoes : GoesOn v t) (stopped goes : Value → P α) :
    (p >>= fun v => stops v >>= fun stop => if stop then stopped v else goes v).run (answering answers) s =
      (goes v).run (answering answers) t := by
  rw [run_bind_some hrun, run_bind_some (run_stops answers t v)]
  rw [GoesOn] at hgoes
  simp [hgoes]

/-- Built-ins that do not return, for runs that call none. -/
def no_builtins : Builtins := fun _ => .halt

/-- The state eval_init starts from: the top-level frame and nothing defined in it. -/
def bare_state : State where
  ev := {
    globals := [], top_env := 0, out := "", call_depth := 0, errored := false, errmsg := ""
    current_exception := .nil, rescue_context := .nil, exception_line := 0, exception_col := 0
    exception_class := none, exception_msg := "", frames := [], active_defs := [0], current_file := none
    arrays := [], hashes := [], classes := [], objects := [] }
  envs := (EnvHeap.empty.env_new none true).2
  host := []

end stoned
