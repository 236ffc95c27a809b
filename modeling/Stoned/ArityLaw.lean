import Stoned.Evaluator

namespace stoned

open program

/-! The number of arguments a method made by def is called with. -/

/-- A program that calls nothing: it returns. -/
abbrev CallFree {α : Type} (p : P α) : Prop := p.Within fun op : Op ⊕ Call => op.isLeft

section
variable {α β : Type}

theorem CallFree.returns {p : P α} (h : CallFree p) (answers : Oracle evaluator_calls State) (s : State) :
    ∃ value t, p.run (answering answers) s = some (value, t) := by
  refine Program.Within.returns h ?_ s
  rintro (op | call) u hop
  · exact ⟨_, rfl⟩
  · cases hop

/-- An operation that leaves the frames alone. -/
def leaves_frames : Op ⊕ Call → Prop
  | .inl .get | .inl (.set _) | .inl (.env_get ..) => True
  | _ => False

/-- A program that calls nothing and leaves the frames alone. -/
abbrev FramesKept {α : Type} (p : P α) : Prop := p.Within leaves_frames

theorem FramesKept.callFree {p : P α} (h : FramesKept p) : CallFree p := by
  induction h with
  | ret value => exact .ret value
  | @step op next allows rest ih =>
    refine .step ?_ ih
    rcases op with op | call
    · rfl
    · cases allows

theorem FramesKept.envs_eq {p : P α} (h : FramesKept p) (answers : Oracle evaluator_calls State) {s t : State} {value : α}
    (hrun : p.run (answering answers) s = some (value, t)) : t.envs = s.envs := by
  induction h generalizing s with
  | ret value =>
    cases hrun
    rfl
  | @step op next allows rest ih =>
    rcases op with op | call
    · cases op with
      | get | env_get env name => exact ih _ hrun
      | set ev => exact ih (s := { s with ev }) () hrun
      | _ => cases allows
    · cases allows

theorem framesKept_get : FramesKept get := .step trivial .ret

theorem framesKept_set (ev : Eval) : FramesKept (set ev) := .step trivial .ret

theorem framesKept_env_get (env : Env) (name : String) : FramesKept (env_get env name) := .step trivial .ret

theorem framesKept_pure (value : α) : FramesKept (pure value) := .ret value

theorem framesKept_modify (f : Eval → Eval) : FramesKept (modify f) := framesKept_get.bind fun _ => framesKept_set _

theorem framesKept_set_ivar (obj : Value) (name : String) (val : Value) : FramesKept (val_object_set_ivar obj name val) := by
  cases obj with
  | object o => exact framesKept_modify _
  | _ => exact framesKept_pure _

theorem framesKept_build_object (klass : Value) (msg : String) : FramesKept (build_exception_object klass msg) := by
  refine .bind (framesKept_get.bind fun _ => .bind (framesKept_set _) fun _ => framesKept_pure _) fun exc => ?_
  refine .bind (framesKept_set_ivar exc _ _) fun _ => framesKept_get.bind fun ev => ?_
  refine .bind (framesKept_get.bind fun _ => .bind (framesKept_set _) fun _ => framesKept_pure _) fun backtrace => ?_
  exact .bind (framesKept_set_ivar exc _ _) fun _ => framesKept_pure _

theorem framesKept_build_exception (class_name msg : String) : FramesKept (build_exception class_name msg) := by
  refine framesKept_get.bind fun ev => .bind (framesKept_env_get _ _) fun found => ?_
  have hruntime : FramesKept (env_get ev.top_env "RuntimeError" >>= fun klass =>
      build_exception_object (klass.getD .nil) msg) :=
    .bind (framesKept_env_get _ _) fun _ => framesKept_build_object _ _
  cases found with
  | none => exact hruntime
  | some found =>
    cases found with
    | klass k => exact framesKept_build_object _ _
    | _ => exact hruntime

theorem framesKept_origin (exc : Value) (site : Option Span) : FramesKept (set_exception_origin exc site) := by
  cases site with
  | none => exact framesKept_pure _
  | some span => exact .bind (framesKept_set_ivar exc _ _) fun _ => framesKept_set_ivar exc _ _

theorem framesKept_new_exception (n : Option Span) (class_name raw_msg : String) :
    FramesKept (new_exception n class_name raw_msg) := by
  refine .bind (framesKept_build_exception _ _) fun exc => framesKept_get.bind fun ev => ?_
  have hfinish : FramesKept (set_exception_origin exc n >>= fun _ => pure exc) :=
    .bind (framesKept_origin exc n) fun _ => framesKept_pure _
  cases ev.rescue_context with
  | object obj => exact .bind (framesKept_set_ivar exc _ _) fun _ => hfinish
  | _ => exact hfinish

theorem framesKept_raise_class (site : Option Span) (class_name message : String) :
    FramesKept (eval_raise_class site class_name message) := by
  refine framesKept_get.bind fun ev => ?_
  by_cases hpending : ev.exception_msg = ""
  · rw [if_pos hpending]
    exact .bind (framesKept_new_exception _ _ _) fun exc => .bind (framesKept_modify _) fun _ => framesKept_pure _
  · rw [if_neg hpending]
    exact framesKept_pure _

/-- Where no message is pending an exception of the named class is raised. -/
theorem eval_raise_class_reports (answers : Oracle evaluator_calls State) {s : State}
    (hpending : s.ev.exception_msg = "") (site : Option Span) (class_name message : String) :
    ∃ t, (eval_raise_class site class_name message).run (answering answers) s = some (.exception, t) ∧
      t.ev.exception_class = some class_name ∧
      t.ev.exception_msg = format_exception_summary class_name (fit 512 message) := by
  obtain ⟨exc, t, hexc⟩ := (framesKept_new_exception site class_name (fit 512 message)).callFree.returns answers s
  have hrun : (eval_raise_class site class_name message).run (answering answers) s =
      some (.exception, { t with ev := set_exception_position site { t.ev with
        exception_class := some class_name
        current_exception := exc
        exception_msg := format_exception_summary class_name (fit 512 message) } }) := by
    rw [eval_raise_class, run_bind_some (run_get answers s), if_pos hpending, run_bind_some hexc]
    rfl
  exact ⟨_, hrun, by cases site <;> exact ⟨rfl, rfl⟩⟩

theorem eval_raise_class_raises (answers : Oracle evaluator_calls State) {s : State}
    (hpending : s.ev.exception_msg = "") (site : Option Span) (class_name message : String) :
    ∃ t, (eval_raise_class site class_name message).run (answering answers) s = some (.exception, t) ∧
      t.ev.exception_class = some class_name := by
  obtain ⟨t, hrun, hclass, -⟩ := eval_raise_class_reports answers hpending site class_name message
  exact ⟨t, hrun, hclass⟩

/-- The positional arguments of a call are too few or too many for a parameter list. -/
def WrongCount (params : List Node) (args : List Value) : Prop :=
  (extract_kwargs params args).2.length < count_required_params params ∨
    count_total_params params < (extract_kwargs params args).2.length

theorem wrongCount_iff {params : List Node} (hsplat : has_splat_param params = false) (args : List Value) :
    WrongCount params args ↔ arity_allows params (extract_kwargs params args).2.length = false := by
  rw [WrongCount, arity_allows, hsplat]
  simp only [Bool.false_or, Bool.and_eq_false_iff, decide_eq_false_iff_not, not_le]

end

/-- A method made by def whose parameters have no splat. -/
structure DefMethod where
  span : Span
  receiver : Option Node
  name : String
  params : List Node
  body : Option Node
  closure : Env
  visibility : MethodVisibility
  def_file : Option String
  no_splat : has_splat_param params = false

namespace DefMethod

def value (m : DefMethod) : Value :=
  .method (.def_ m.span m.receiver m.name m.params m.body) m.closure m.visibility m.def_file

end DefMethod

/-- How a method comes to run: through call_method_value, or by the call
sequence eval_call has of its own. -/
inductive Route where
  | method_value (recv : Value) (owner : Option Ref) (name : String) (blk : Option Value) (site : Option Span)
  | inline (bindings : List (String × Value)) (name : String) (blk : Option Value) (site : Option Span)

namespace Route

/-- The call by this route. -/
def program (m : DefMethod) (args : List Value) : Route → P Value
  | .method_value recv owner name blk site => call_method_value_body recv m.value owner name args blk site
  | .inline bindings name blk site => call_inline m.value bindings name args blk site

/-- The part of the call in front of the method's body. It answers the frame to
run the body in, if it is to be run. -/
def enter (m : DefMethod) (args : List Value) : Route → P (Option Env)
  | .method_value recv owner name blk site => enter_method recv m.value owner name args blk site
  | .inline bindings _ blk _ => enter_inline m.closure m.params bindings args blk

/-- Whether the number of arguments is looked at. -/
def counts_args : Route → Bool
  | .method_value .. => true
  | .inline .. => false

/-- Binding the parameters itself raises an ArgumentError: a keyword is missing
or unknown, or a default raises one. -/
def BindingRaises (answers : Oracle evaluator_calls State) (m : DefMethod) (args : List Value) (s : State) :
    Route → Prop
  | .method_value .. => False
  | .inline bindings _ blk _ => ∃ frame t,
      (inline_frame m.closure m.params bindings args blk).run (answering answers) s = some (frame, t) ∧
        t.ev.exception_class = some "ArgumentError"

/-- A call is refused: it raises an ArgumentError, and all it does it does in
front of the body. -/
def Refuses (answers : Oracle evaluator_calls State) (m : DefMethod) (args : List Value) (s : State)
    (route : Route) : Prop :=
  ∃ t, (route.enter m args).run (answering answers) s = some (none, t) ∧
    (route.program m args).run (answering answers) s = some (.exception, t) ∧
    (route.program m args).performed (answering answers) s = (route.enter m args).performed (answering answers) s ∧
    t.ev.exception_class = some "ArgumentError"

section
variable {answers : Oracle evaluator_calls State} {m : DefMethod} {args : List Value} {s : State}

/-- The body runs in the frame that entering answers, if it answers one. -/
theorem program_eq (m : DefMethod) (args : List Value) (route : Route) :
    ∃ run_in : Env → P Value, route.program m args = route.enter m args >>= fun frame =>
      match frame with
      | none => return .exception
      | some frame => run_in frame := by
  cases route with
  | method_value recv owner name blk site => exact ⟨_, rfl⟩
  | inline bindings name blk site => exact ⟨_, rfl⟩

theorem refuses_iff {route : Route} :
    route.Refuses answers m args s ↔ ∃ t, (route.enter m args).run (answering answers) s = some (none, t) ∧
      t.ev.exception_class = some "ArgumentError" := by
  constructor
  · rintro ⟨t, henter, -, -, hraised⟩
    exact ⟨t, henter, hraised⟩
  · rintro ⟨t, henter, hraised⟩
    obtain ⟨run_in, hprogram⟩ := program_eq m args route
    refine ⟨t, henter, ?_, ?_, hraised⟩
    · rw [hprogram, run_bind_some henter]
      rfl
    · rw [hprogram, performed_bind henter]
      exact List.append_nil _

theorem enter_method_refuses (recv : Value) (owner : Option Ref) (name : String) (blk : Option Value)
    (site : Option Span) (hcount : WrongCount m.params args) (hpending : s.ev.exception_msg = "") :
    ∃ t, (enter_method recv m.value owner name args blk site).run (answering answers) s = some (none, t) ∧
      t.ev.exception_class = some "ArgumentError" := by
  obtain ⟨t, hraise, hraised⟩ :=
    eval_raise_class_raises answers hpending site "ArgumentError" "wrong number of arguments"
  have hwrong : (!arity_allows m.params (extract_kwargs m.params args).2.length) = true := by
    rw [(wrongCount_iff m.no_splat args).mp hcount]
    rfl
  have henter : enter_method recv m.value owner name args blk site =
      eval_raise_class site "ArgumentError" "wrong number of arguments" >>= fun _ => return none := if_pos hwrong
  exact ⟨t, by rw [henter, run_bind_some hraise]; rfl, hraised⟩

theorem enter_inline_refuses_iff (bindings : List (String × Value)) (blk : Option Value) :
    (∃ t, (enter_inline m.closure m.params bindings args blk).run (answering answers) s = some (none, t) ∧
      t.ev.exception_class = some "ArgumentError") ↔
    ∃ frame t, (inline_frame m.closure m.params bindings args blk).run (answering answers) s = some (frame, t) ∧
      t.ev.exception_class = some "ArgumentError" := by
  constructor
  · rintro ⟨t, henter, hraised⟩
    obtain ⟨frame, u, hframe, hrest⟩ := run_bind_eq_some_iff.mp henter
    rw [run_bind_some (run_get answers u)] at hrest
    by_cases hclass : u.ev.exception_class.isSome
    · rw [if_pos hclass] at hrest
      cases hrest
      exact ⟨frame, t, hframe, hraised⟩
    · rw [if_neg hclass] at hrest
      cases hrest
  · rintro ⟨frame, t, hframe, hraised⟩
    refine ⟨t, ?_, hraised⟩
    rw [enter_inline, run_bind_some hframe, run_bind_some (run_get answers t), hraised]
    rfl

end

end Route

section
variable {builtins : Builtins} {depth : Nat} {m : DefMethod} {s t u v w x : State}

/-- A name of no built-in that the class of self does not know and the scope
does, whether the call stands at the top level, in a method or in a block. -/
theorem bare_call_is_inline {env : Env} {name : String} {args : List Value} {blk : Option Value}
    {site : Option Span} (hyield : name ≠ "yield") (hblock : name ≠ "block_given?")
    (hkernel : kernel_names.contains name = false)
    (hself : (self_has_method ((s.envs.env_get env "self").getD .nil) name).run (builtins.machine depth) s =
      some (false, t))
    (hscope : (find_bare_method env name).run (builtins.machine depth) t = some (some m.value, u)) :
    (eval_bare_call env name args blk site).run (builtins.machine depth) s =
      ((Route.inline [("__method__", .symbol name)] name blk site).program m args).run (builtins.machine depth) u := by
  have hof : (self_of env).run (builtins.machine depth) s = some ((s.envs.env_get env "self").getD .nil, s) := rfl
  rw [eval_bare_call, if_neg hyield, if_neg hblock, hkernel, if_neg Bool.false_ne_true, run_bind_some hof,
    run_bind_some hself, if_neg Bool.false_ne_true, run_bind_some hscope]
  rfl

/-- A stage that finds nothing leaves the call to the next ones. -/
theorem run_or_else {stage : P (Option Value)} (hstage : stage.run (builtins.machine depth) s = some (none, t))
    (rest : P Value) : (or_else stage rest).run (builtins.machine depth) s = rest.run (builtins.machine depth) t :=
  run_bind_some hstage

/-- A stage that finds a method answers what the method does. -/
theorem run_or_else_found {stage : P (Option Value)} {found : P Value}
    (hstage : stage.run (builtins.machine depth) s =
      (found >>= fun v => return some v).run (builtins.machine depth) t)
    (rest : P Value) : (or_else stage rest).run (builtins.machine depth) s = found.run (builtins.machine depth) t := by
  rw [or_else, run_bind, hstage, run_bind]
  cases found.run (builtins.machine depth) t <;> rfl

/-- A call on an object whose class has the method, also by `send`. -/
theorem object_call_is_method_value {send : Send} {o klass : Ref} {owner : Option Ref}
    (hrecv : send.recv = .object o)
    (hsingleton : (dispatch_singleton send).run (builtins.machine (depth + 1)) s = some (none, t))
    (hklass : t.ev.class_of_object o = some klass)
    (halias : (dispatch_alias send klass).run (builtins.machine (depth + 1)) t = some (none, u))
    (henumerator : (dispatch_builtin .enumerator send).run (builtins.machine (depth + 1)) u = some (none, v))
    (hfind : (ruby_class_find_instance_method klass send.name).run (builtins.machine (depth + 1)) v =
      some (some (m.value, owner), w))
    (hallows : (allows_call send m.value owner).run (builtins.machine (depth + 1)) w = some (true, x)) :
    (dispatch_method_body send).run (builtins.machine (depth + 1)) s =
      ((Route.method_value send.recv owner send.name send.blk send.site).program m send.args).run
        (builtins.machine depth) x := by
  have hfirst : (dispatch_object_first send).run (builtins.machine (depth + 1)) t =
      (send_to send m.value owner >>= fun v => return some v).run (builtins.machine (depth + 1)) x := by
    rw [dispatch_object_first, hrecv, run_bind_some (run_get _ t), hklass, run_bind_some halias,
      run_bind_some henumerator, dispatch_user_method, run_bind_some hfind]
    exact run_bind_some hallows
  rw [dispatch_method_body, run_or_else hsingleton, run_or_else_found hfirst]
  exact run_call builtins depth (.call_method_value send.recv m.value owner send.name send.args send.blk send.site) x

/-- `send` hands its further arguments to the method it names. -/
theorem dynamic_send_is_dispatch {send : Send} {name : String} {args : List Value}
    (hargs : send.args = .symbol name :: args) :
    (dispatch_dynamic_send send false).run (builtins.machine (depth + 1)) s =
      (dispatch_method_body { send with name, args, public_only := false, explicit_receiver := -1 }).run
        (builtins.machine depth) s := by
  rw [dispatch_dynamic_send, hargs]
  exact run_call builtins depth (.dispatch_method _) s

/-- `super` runs the method behind the running one. -/
theorem super_is_method_value {env : Env} {span : Span} {arg_nodes : List Node} {forward_args : Bool} {self : Value}
    {cur_class : Ref} {name : String} {args : List Value} {owner : Option Ref}
    (hself : s.envs.env_get env "self" = some self) (hkind : self.kind = .object ∨ self.kind = .klass)
    (hclass : s.envs.env_get env "__class__" = some (.klass cur_class))
    (hmethod : s.envs.env_get env "__method__" = some (.symbol name))
    (hargs : (super_args env self cur_class name arg_nodes forward_args).run (builtins.machine (depth + 1)) s =
      some (.inr args, t))
    (hfind : (find_super self cur_class name).run (builtins.machine (depth + 1)) t = some (some (m.value, owner), u)) :
    (eval_super env span arg_nodes forward_args).run (builtins.machine (depth + 1)) s =
      ((Route.method_value self owner name (u.envs.env_block_arg env) (some span)).program m args).run
        (builtins.machine depth) u := by
  have hcall : (env_block_arg env >>= fun blk => call_method_value self m.value owner name args blk (some span)).run
      (builtins.machine (depth + 1)) u =
        ((Route.method_value self owner name (u.envs.env_block_arg env) (some span)).program m args).run
          (builtins.machine depth) u :=
    run_call builtins depth (.call_method_value self m.value owner name args (u.envs.env_block_arg env) (some span)) u
  have hget (name : String) (v : Value) (hname : s.envs.env_get env name = some v) :
      (env_get env name).run (builtins.machine (depth + 1)) s = some (some v, s) := by
    rw [← hname]
    rfl
  rw [eval_super, run_bind_some (hget _ _ hself), run_bind_some (hget _ _ hclass), run_bind_some (hget _ _ hmethod)]
  rcases hkind with hkind | hkind <;> simp only [hkind, text_of] <;>
    exact (run_bind_some hargs).trans ((run_bind_some hfind).trans hcall)

end

/-- `def f(a); 1; end` -/
def unary_method : DefMethod where
  span := no_span
  receiver := none
  name := "f"
  params := [.param no_span (some "a") none false false false false]
  body := some (.int no_span 1)
  closure := 0
  visibility := .method_public
  def_file := none
  no_splat := by decide

end stoned
