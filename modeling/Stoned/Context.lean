import Stoned.Evaluator
import Stoned.Program.Keep

namespace stoned

open program

/-! Where the evaluator is in the program it runs, and the functions that leave
it there. -/

/-- The two bounded stacks, the depth of method calls and the file that
`require_relative` starts from. -/
structure Context where
  frames : List EvalFrame
  active_defs : List Env
  call_depth : Int
  current_file : Option String

def Eval.context (ev : Eval) : Context where
  frames := ev.frames
  active_defs := ev.active_defs
  call_depth := ev.call_depth
  current_file := ev.current_file

/-- A change of the evaluator that leaves it where it is. -/
class Quiet (f : Eval → Eval) : Prop where
  context : ∀ ev, (f ev).context = ev.context

instance {globals : Eval → List (String × Value)} {top_env : Eval → Env} {out : Eval → String} {errored : Eval → Bool}
    {errmsg : Eval → String} {current_exception rescue_context : Eval → Value}
    {exception_line exception_col : Eval → UInt32} {exception_class : Eval → Option String}
    {exception_msg : Eval → String} {arrays : Eval → List RubyArray} {hashes : Eval → List RubyHash}
    {classes : Eval → List RubyClass} {objects : Eval → List RubyObject} :
    Quiet fun ev => {
      ev with
      globals := globals ev, top_env := top_env ev, out := out ev, errored := errored ev, errmsg := errmsg ev
      current_exception := current_exception ev, rescue_context := rescue_context ev
      exception_line := exception_line ev, exception_col := exception_col ev, exception_class := exception_class ev
      exception_msg := exception_msg ev, arrays := arrays ev, hashes := hashes ev, classes := classes ev
      objects := objects ev } where
  context _ := rfl

/-- What is to be kept of the evaluator depends on its context, and calls keep
it. -/
class Guard (K : Keep (state_ops.withCalls evaluator_calls) State) : Prop where
  op : ∀ o s, K.machine.exec (.inl o) s = some (o.exec s)
  alike : ∀ s t, s.ev.context = t.ev.context → K.alike.r s t
  call : ∀ c, (call c).Keeps K

section
variable {K : Keep (state_ops.withCalls evaluator_calls) State} [Guard K] {α : Type}

theorem run_op {o : Op} {s t : State} {answer : o.Answer} (h : (op o).run K.machine s = some (answer, t)) :
    (answer, t) = o.exec s := by
  have hexec := (run_perform (S := state_ops.withCalls evaluator_calls) (.inl o) s).symm.trans h
  exact Option.some.inj (hexec.symm.trans (Guard.op o s))

/-- An operation that does not touch the context. -/
theorem keeps_op (o : Op) (h : ∀ s, (o.exec s).2.ev.context = s.ev.context) : (op o).Keeps K where
  keeps := by
    intro s t answer _ hrun
    refine Guard.alike s t ?_
    rw [← h s, ← run_op hrun]

/-- A write to other fields, with what comes behind it. -/
theorem keeps_write {f : Eval → Eval} (rest : Eval → P α) (h : ∀ ev, (f ev).context = ev.context)
    [hrest : ∀ ev, (rest ev).Keeps K] : (get >>= fun ev => set (f ev) >>= fun _ => rest ev).Keeps K where
  keeps := by
    intro s t value halways hrun
    obtain ⟨ev, u, hget, hwrite⟩ := run_bind_eq_some_iff.mp hrun
    cases run_op hget
    obtain ⟨_, v, hset, hbehind⟩ := run_bind_eq_some_iff.mp hwrite
    cases run_op hset
    refine K.alike.iseqv.trans (Guard.alike s { s with ev := f s.ev } (h s.ev).symm) ?_
    exact (hrest s.ev).keeps ((halways.behind hget).behind hset) hbehind

instance {f : Eval → Eval} [h : Quiet f] : (modify f).Keeps K := keeps_write (fun _ => .ret ()) h.context

instance : get.Keeps K := keeps_op _ fun _ => rfl
instance (parent : Option Env) (is_def : Bool) : (env_new parent is_def).Keeps K := keeps_op _ fun _ => rfl
instance (env : Env) : (env_nearest_def env).Keeps K := keeps_op _ fun _ => rfl
instance (env : Env) (name : String) : (env_get env name).Keeps K := keeps_op _ fun _ => rfl
instance (env : Env) (name : String) : (env_get_method env name).Keeps K := keeps_op _ fun _ => rfl
instance (env : Env) (name : String) : (env_get_own env name).Keeps K := keeps_op _ fun _ => rfl
instance (env : Env) (name : String) (val : Value) : (env_update env name val).Keeps K := keeps_op _ fun _ => rfl
instance (env : Env) (name : String) (val : Value) : (env_set env name val).Keeps K := keeps_op _ fun _ => rfl
instance (env : Env) (name : String) (val : Value) : (env_define env name val).Keeps K := keeps_op _ fun _ => rfl
instance (env : Env) (suffix : String) : (env_vars env suffix).Keeps K := keeps_op _ fun _ => rfl
instance (env : Env) : (env_block_arg env).Keeps K := keeps_op _ fun _ => rfl
instance (env : Env) (blk : Option Value) : (set_block_arg env blk).Keeps K := keeps_op _ fun _ => rfl
instance : slip.Keeps K := keeps_op _ fun _ => rfl
instance (env : Env) : (op (.env_own_block_arg env)).Keeps K := keeps_op _ fun _ => rfl
instance (env : Env) (name : String) : (op (.env_remove_own env name)).Keeps K := keeps_op _ fun _ => rfl
instance (c : Call) : (call c).Keeps K := Guard.call c

instance (env : Env) (node : Option Node) : (eval_node env node).Keeps K := Guard.call _
instance (env : Env) (target : Node) (val : Value) : (assign_target env target val).Keeps K := Guard.call _
instance (env binding_env : Env) (val : Value) (pat : Option Node) : (match_pattern env binding_env val pat).Keeps K :=
  Guard.call _
instance (env : Env) (pattern : Node) (val : Value) : (bind_pattern env pattern val).Keeps K := Guard.call _
instance (recv method : Value) (owner : Option Ref) (name : String) (args : List Value) (blk : Option Value)
    (site : Option Span) : (call_method_value recv method owner name args blk site).Keeps K := Guard.call _
instance (blk : Value) (args : List Value) (call_site : Option Span) : (call_block blk args call_site).Keeps K :=
  Guard.call _
instance (send : Send) : (dispatch_method send).Keeps K := Guard.call _

instance (b : Builtin) : (builtin b).Keeps K := by
  refine .seq inferInstance fun before => .seq (Guard.call (.builtin b)) fun answer => ?_
  exact .seq (keeps_op (.kept before) fun _ => rfl) fun _ => .ret answer

instance keeps_builtin_value (b : Builtin) (value : b.Answer → Option Value) : (builtin_value b value).Keeps K := by
  refine .seq (Guard.call (.builtin b)) fun answer => ?_
  exact .seq (keeps_op (.returned ((value answer).getD .nil)) fun _ => rfl) fun _ => .ret (value answer)

instance (v : Value) : (val_to_s v).Keeps K := inferInstanceAs ((builtin _).Keeps K)
instance (v : Value) : (val_inspect v).Keeps K := inferInstanceAs ((builtin _).Keeps K)

instance (recv : Value) (name : String) (include_private : Bool) :
    (val_responds_to recv name include_private).Keeps K := inferInstanceAs ((builtin _).Keeps K)

instance (pattern : String) (options : UInt32) : (regex_compile pattern options).Keeps K :=
  inferInstanceAs ((builtin _).Keeps K)

instance (env : Env) (operator : String) (left right : Value) (site : Option Span) :
    (arithmetic env operator left right site).Keeps K := keeps_builtin_value _ _

instance (recv : Value) (method : String) (args : List Value) (site : Option Span) :
    (array_subscript recv method args site).Keeps K := keeps_builtin_value _ _

instance (env : Env) (name : String) (args : List Value) (blk : Option Value) (site : Option Span) :
    (other_builtin_kernel env name args blk site).Keeps K :=
  .seq (keeps_builtin_value _ _) fun _ => .ret _

instance (stage : BuiltinStage) (send : Send) : (dispatch_builtin stage send).Keeps K := keeps_builtin_value _ _

instance (elems : List Value) : (val_array_of elems).Keeps K := keeps_write _ fun _ => rfl
instance (array : Ref) (elem : Value) : (val_array_push array elem).Keeps K := by unfold val_array_push; infer_instance
instance (klass : Value) : (val_object klass).Keeps K := keeps_write _ fun _ => rfl

instance (obj : Value) (name : String) (val : Value) : (val_object_set_ivar obj name val).Keeps K := by
  unfold val_object_set_ivar
  split <;> infer_instance

instance (obj : Value) (name : String) : (val_object_get_ivar obj name).Keeps K := by
  unfold val_object_get_ivar
  split <;> infer_instance

instance (name : String) (superclass : Option Ref) : (val_class name superclass).Keeps K := keeps_write _ fun _ => rfl
instance (klass : Ref) (f : RubyClass → RubyClass) : (set_class klass f).Keeps K := by unfold set_class; infer_instance
instance : val_hash_new.Keeps K := keeps_write _ fun _ => rfl
instance (a b : Value) : (val_equal a b).Keeps K := Guard.call _

instance (key : Value) (pairs : List (Value × Value)) : (find_key key pairs).Keeps K := by
  induction pairs with
  | nil => exact .ret _
  | cons first rest ih =>
    unfold find_key
    infer_instance

instance (hash : Ref) (key val : Value) : (val_hash_set hash key val).Keeps K := by unfold val_hash_set; infer_instance

instance (hash : Ref) (pairs : List (Value × Value)) : (val_hash_set_all hash pairs).Keeps K := by
  induction pairs with
  | nil => exact .ret _
  | cons first rest ih =>
    unfold val_hash_set_all
    infer_instance

instance (a b : Value) : (val_equal_body a b).Keeps K := by
  have hall (pairs : List (Value × Value)) : (val_equal_body.all_equal pairs).Keeps K := by
    induction pairs with
    | nil => exact .ret true
    | cons pair rest ih =>
      unfold val_equal_body.all_equal
      infer_instance
  unfold val_equal_body
  split
  case h_13 => exact .ite (.ret true) (inferInstanceAs ((builtin _).Keeps K))
  all_goals infer_instance

instance (name : String) (val : Value) : (global_set name val).Keeps K := by unfold global_set; infer_instance
instance (name : String) : (global_get name).Keeps K := by unfold global_get; infer_instance

instance (exc : Value) : (exception_value_message exc).Keeps K := by
  unfold exception_value_message
  refine .seq inferInstance fun _ => ?_
  split <;> infer_instance

instance (ivar : String) (exc : Value) : (exception_value_position ivar exc).Keeps K := by
  unfold exception_value_position
  refine .seq inferInstance fun _ => ?_
  split <;> infer_instance

instance (klass : Value) (msg : String) : (build_exception_object klass msg).Keeps K := by
  unfold build_exception_object
  infer_instance

instance (class_name msg : String) : (build_exception class_name msg).Keeps K := by
  unfold build_exception
  refine .seq inferInstance fun _ => .seq inferInstance fun _ => ?_
  split <;> infer_instance

instance (exc : Value) (site : Option Span) : (set_exception_origin exc site).Keeps K := by
  unfold set_exception_origin
  split <;> infer_instance

instance {f : Eval → Eval} [h : Quiet f] (site : Option Span) : Quiet fun ev => set_exception_position site (f ev) where
  context ev := by cases site <;> exact h.context ev

instance (site : Option Span) : Quiet (set_exception_position site) where
  context ev := by cases site <;> rfl

instance (n : Option Span) (message : String) : (eval_error n message).Keeps K := by unfold eval_error; infer_instance

instance (n : Option Span) (class_name raw_msg : String) : (new_exception n class_name raw_msg).Keeps K := by
  unfold new_exception
  refine .seq inferInstance fun _ => .seq inferInstance fun _ => ?_
  split <;> infer_instance

instance (n : Option Span) (class_name message : String) : (eval_raise_class n class_name message).Keeps K := by
  unfold eval_raise_class
  refine .seq inferInstance fun _ => ?_
  split <;> infer_instance

instance (n : Option Span) (exc : Value) : (eval_raise_value n exc).Keeps K := by
  unfold eval_raise_value
  refine .seq inferInstance fun _ => ?_
  repeat' first | infer_instance | split | refine .seq inferInstance fun _ => ?_

instance : eval_clear_exception.Keeps K := by unfold eval_clear_exception; infer_instance
instance : drop_exception.Keeps K := by unfold drop_exception; infer_instance
instance : goes_on.Keeps K := by unfold goes_on; infer_instance
instance (v : Value) : (stops v).Keeps K := by unfold stops; infer_instance
instance (v : Value) (rest : P Value) [rest.Keeps K] : (check v rest).Keeps K := by unfold check; infer_instance

instance (val : Value) : (array_elems val).Keeps K := by unfold array_elems; split <;> infer_instance

instance (bind : Node → Value → P Unit) (elements : List Node) (val : Value) (n : Nat)
    (nodes : List Node) [∀ n v, (bind n v).Keeps K] : (destructure bind elements val n nodes).Keeps K := by
  induction nodes generalizing n with
  | nil => exact .ret _
  | cons first rest ih =>
    unfold destructure
    infer_instance

instance (env : Env) (pattern : Node) (val : Value) : (bind_pattern_body env pattern val).Keeps K := by
  unfold bind_pattern_body
  split <;> infer_instance

instance (env : Env) (args : List Value) (post : Nat) (n : Nat) (nodes : List Node) :
    (bind_positional env args post n nodes).Keeps K := by
  induction nodes generalizing n with
  | nil => exact .ret _
  | cons first rest ih =>
    unfold bind_positional
    repeat' first | infer_instance | split

instance (ref : Option Ref) : (kwargs_pairs ref).Keeps K := by unfold kwargs_pairs; split <;> infer_instance

instance (env : Env) (kwargs : Option Ref) (names : List String) (nodes : List Node) :
    (bind_keywords env kwargs names nodes).Keeps K := by
  induction nodes generalizing names with
  | nil => exact .ret _
  | cons first rest ih =>
    unfold bind_keywords
    repeat' first | infer_instance | split | refine .seq inferInstance fun _ => ?_

instance (env : Env) (params : List Node) (kwargs : Option Ref) (consumed : List String) :
    (bind_kwrest env params kwargs consumed).Keeps K := by
  unfold bind_kwrest
  refine .seq inferInstance fun pairs => ?_
  dsimp only
  split
  · refine .seq inferInstance fun rest_hash => .seq inferInstance fun _ => ?_
    split <;> infer_instance
  · split <;> infer_instance

instance (env : Env) (params : List Node) (args : List Value) : (bind_params env params args).Keeps K := by
  unfold bind_params
  refine .seq inferInstance fun _ => .seq inferInstance fun _ => ?_
  split <;> infer_instance

end

end stoned
