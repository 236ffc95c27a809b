import Stoned.CallLaw

namespace stoned

open program

/-! What a compound assignment evaluates, reads and writes. -/

/-- The targets of `target op= value`. -/
inductive Target where
  | lvar (span : Span) (name : String)
  | ivar (span : Span) (name : String)
  | gvar (span : Span) (name : String)
  /-- `recv.method` -/
  | attr (span : Span) (recv : Node) (method : String)
  /-- `recv[indices]` -/
  | element (span : Span) (recv : Node) (indices : List Node)

def Target.node : Target → Node
  | .lvar span name => .lvar span name
  | .ivar span name => .ivar span name
  | .gvar span name => .gvar span name
  | .attr span recv method => .call span (some recv) method [] none false
  | .element span recv indices => .call span (some recv) "[]" indices none false

/-- The call a target makes when it is read. -/
def Target.call : Target → Option (Span × Node × String × List Node)
  | .attr span recv method => some (span, recv, method, [])
  | .element span recv indices => some (span, recv, "[]", indices)
  | _ => none

/-- The operations that are seen from outside: calls, writes and input. -/
def is_effect : (state_ops.withCalls evaluator_calls).Op → Bool
  | .inr _ => true
  | .inl op =>
    match op with
    | .get | .env_nearest_def _ | .env_get .. | .env_get_method .. | .env_get_own .. | .env_vars ..
    | .env_own_block_arg _ | .env_block_arg _ | .slip | .returned _ | .kept _ => false
    | _ => true

/-- `&&` behind a false value and `||` behind a true one are not evaluated further. -/
def short_circuits (op : String) (left : Value) : Bool :=
  if op = "&&" || op = "and" then !val_truthy left
  else if op = "||" || op = "or" then val_truthy left
  else false

/-- The value of `left op right_node` when `left` does not decide it. -/
def operand_value (env : Env) (span : Span) (op : String) (left_node right_node : Node) (left : Value) : P Value := do
  if op = "&&" || op = "and" || op = "||" || op = "or" then eval_node env (some right_node)
  else
    let right ← eval_node env (some right_node)
    check right (apply_binop env span op left_node left right)

/-- Where a call target is: its receiver and subscripts, once they have been evaluated. -/
structure Place where
  recv : Value
  args : List Value

/-- A call in the source's order, with the receiver and the arguments it found. -/
def read_call (env : Env) (span : Span) (recv_node : Node) (method : String) (arg_nodes : List Node) :
    P (Value × Option Place) := do
  if (← get).errored then return (.nil, none)
  if EVAL_MAX_DEPTH < (← get).call_depth then
    return (← eval_raise_class (some span) "SystemStackError" "stack level too deep", none)
  match ← collect_arguments env no_arguments arg_nodes with
  | .inl signal => return (signal, none)
  | .inr acc =>
    match ← block_of_call env none acc.block_pass with
    | .inl signal => return (signal, none)
    | .inr blk =>
      let recv ← eval_node env (some recv_node)
      if ← stops recv then return (recv, none)
      let result ← call_received env span recv_node recv method acc.list blk
      return (result, some { recv, args := acc.list })

/-- The one read of a target. -/
def read_target (env : Env) (target : Target) : P (Value × Option Place) := do
  match target.call with
  | some (span, recv, method, args) => read_call env span recv method args
  | none => return (← eval_node env (some target.node), none)

/-- The one write to a target: a call sends the setter to the receiver that was
read from. What it raises is the result. -/
def write_target (env : Env) (target : Target) (place : Option Place) (val : Value) : P Value := do
  match target, target.call, place with
  | .lvar _ name, _, _ =>
    assign_lvar env name val
    return val
  | _, some (span, _, method, _), some { recv, args } =>
    let result ← dispatch_method {
      env, recv, name := setter_name method, args := args ++ [val], site := some span }
    if val_is_signal result then return result else return val
  | target, _, _ =>
    let exc_before := (← get).exception_class
    assign_target env target.node val
    if (← get).exception_class ≠ exc_before then return .exception else return val

/-- The law of `target op= right`: one read, then nothing more if that decides
the operator, else the right side and one write. -/
def op_assign_law (env : Env) (span : Span) (op : String) (target : Target) (right : Node) : P Value := do
  let (current, place) ← read_target env target
  check current do
    if short_circuits (base_operator op) current then return current
    let val ← operand_value env span (base_operator op) target.node right current
    check val (write_target env target place val)

/-- `eval_op_assign` over the read and the write of its target. -/
def op_assign_over (read : P Value) (write : Value → P Unit) (env : Env) (span : Span) (op : String)
    (left right : Node) : P Value := do
  let left_val ← read
  let val ← check left_val do
    if short_circuits (base_operator op) left_val then return left_val
    operand_value env span (base_operator op) left right left_val
  check val do
    write val
    return val

/-- The source reads a call target by evaluating it. -/
def source_read (env : Env) (target : Target) : P Value :=
  match target.call with
  | some _ => eval_node_body 0 env (some target.node)
  | none => eval_node env (some target.node)

/-- And it assigns to a call target by evaluating its receiver and subscripts. -/
def source_write (env : Env) (target : Target) (val : Value) : P Unit :=
  match target, target.call with
  | .lvar _ name, _ => assign_lvar env name val
  | target, some _ => assign_target_body env target.node val >>= fun _ => goes_on
  | target, none => assign_target env target.node val >>= fun _ => goes_on

/-- `eval_op_assign` with the evaluation of a call target written out. -/
def op_assign_source (env : Env) (span : Span) (op : String) (target : Target) (right : Node) : P Value :=
  op_assign_over (source_read env target) (source_write env target) env span op target.node right

section
variable {answers : Oracle evaluator_calls State} {env : Env} {span : Span} {op : String} {target : Target}
  {right : Node} {s : State}

/-- An operator looks at its left side and may be decided by it. -/
theorem eval_binop_eq (env : Env) (span : Span) (op : String) (left_node right_node : Node) :
    eval_binop env span op left_node right_node = eval_node env (some left_node) >>= fun left => check left (do
      if short_circuits op left then return left
      operand_value env span op left_node right_node left) := by
  rw [eval_binop]
  refine bind_congr fun left => congrArg (check left) ?_
  by_cases hand : op = "&&" ∨ op = "and"
  · cases htruthy : val_truthy left <;> simp [short_circuits, operand_value, hand, htruthy]
  · by_cases hor : op = "||" ∨ op = "or"
    · cases htruthy : val_truthy left <;> simp [short_circuits, operand_value, hand, hor, htruthy]
    · simp [short_circuits, operand_value, hand, hor]

theorem eval_op_assign_eq (env : Env) (span : Span) (op : String) (target : Target) (right : Node) :
    eval_op_assign env span op target.node right =
      op_assign_over (eval_node env (some target.node)) (fun val =>
        match target with
        | .lvar _ name => assign_lvar env name val
        | target => assign_target env target.node val >>= fun _ => goes_on) env span op target.node right := by
  rw [eval_op_assign, eval_binop_eq, op_assign_over, bind_assoc]
  cases target <;> rfl

theorem eval_call_node_eq (env : Env) (span : Span) (recv_node : Node) (method : String) (arg_nodes : List Node) :
    eval_node_body 0 env (some (.call span (some recv_node) method arg_nodes none false)) =
      read_call env span recv_node method arg_nodes >>= fun out => return out.1 := by
  rw [read_call, bind_assoc]
  refine bind_congr fun ev => ?_
  cases ev.errored with
  | true => rfl
  | false =>
    change eval_call env span (some recv_node) method arg_nodes none false = _
    rw [eval_call]
    simp only [Bool.false_eq_true, if_false, bind_assoc]
    refine bind_congr fun ev => ?_
    by_cases hdeep : EVAL_MAX_DEPTH < ev.call_depth
    · simp only [if_pos hdeep, bind_assoc, pure_bind, bind_pure]
    · simp only [if_neg hdeep, bind_assoc]
      refine bind_congr fun collected => ?_
      cases collected with
      | inl signal => rfl
      | inr acc =>
        rw [bind_assoc]
        refine bind_congr fun taken => ?_
        cases taken with
        | inl signal => rfl
        | inr blk =>
          refine (eval_receiver_call_eq ..).trans ?_
          refine (bind_congr fun recv => ?_).trans (bind_assoc _ _ _).symm
          refine (bind_congr fun stop => ?_).trans (bind_assoc _ _ _).symm
          cases stop with
          | true => rfl
          | false => exact ((bind_assoc _ _ _).trans (bind_pure _)).symm

/-- The read of the source is the one of the law. -/
theorem source_read_eq (env : Env) (target : Target) :
    source_read env target = read_target env target >>= fun out => return out.1 := by
  cases target with
  | attr | element => exact eval_call_node_eq ..
  | lvar | ivar | gvar => exact (bind_pure _).symm

/-- Looking at a value is not seen. -/
theorem check_goes_on {v : Value} (h : GoesOn v s) (rest : P Value) :
    (check v rest).AgreeOn (answering answers) is_effect rest s := by
  have hcheck : (check v rest).AgreeOn (answering answers) is_effect
      (if s.ev.errored || val_is_signal v then return v else rest) s := ⟨rfl, rfl⟩
  rw [GoesOn] at h
  rw [h] at hcheck
  exact hcheck

theorem check_stops {v : Value} (h : ¬ GoesOn v s) (rest : P Value) :
    (check v rest).AgreeOn (answering answers) is_effect (return v) s := by
  have hcheck : (check v rest).AgreeOn (answering answers) is_effect
      (if s.ev.errored || val_is_signal v then return v else rest) s := ⟨rfl, rfl⟩
  rw [GoesOn, Bool.not_eq_false] at h
  rw [h] at hcheck
  exact hcheck

end

/-- What is written is stored: a local variable takes anything, an instance or
global variable what its assignment does not refuse, a call nothing, since it
is evaluated a second time. -/
def Stores (answers : Oracle evaluator_calls State) (env : Env) (target : Target) (val : Value) (s : State) : Prop :=
  match target with
  | .lvar .. => True
  | .ivar .. | .gvar .. => ∀ u, (assign_target env target.node val).run (answering answers) s = some ((), u) →
      u.ev.exception_class = s.ev.exception_class
  | .attr .. | .element .. => False

/-- Behind the read the operator is not decided, and what it computes is stored. -/
def OneWrite (answers : Oracle evaluator_calls State) (env : Env) (span : Span) (op : String) (target : Target)
    (right : Node) (s : State) : Prop :=
  ∀ current place t, (read_target env target).run (answering answers) s = some ((current, place), t) →
    GoesOn current t → short_circuits (base_operator op) current = false ∧
      ∀ val u, (operand_value env span (base_operator op) target.node right current).run (answering answers) t =
        some (val, u) → GoesOn val u → Stores answers env target val u

section
variable {answers : Oracle evaluator_calls State} {env : Env} {span : Span} {op : String} {target : Target}
  {right : Node} {s : State} {val : Value}

theorem seen_get {α : Type} (f : Eval → P α) (s : State) :
    ((get >>= f).performed (answering answers) s).filter is_effect =
      ((f s.ev).performed (answering answers) s).filter is_effect := rfl

/-- What the source's write is seen to do first. -/
def Target.first_write (env : Env) (target : Target) (val : Value) : (state_ops.withCalls evaluator_calls).Op :=
  match target with
  | .lvar _ name => .inl (.env_update env name val)
  | .attr _ recv _ | .element _ recv _ => .inr (.eval_node env (some recv))
  | target => .inr (.assign_target env target.node val)

theorem source_write_performs (answers : Oracle evaluator_calls State) (env : Env) (target : Target) (val : Value)
    (s : State) :
    (((source_write env target val >>= fun _ => (return val : P Value)).performed (answering answers) s).filter
      is_effect).head? = some (target.first_write env val) := by
  cases target <;> exact seen_step_head rfl _ s

/-- A variable's write is the law's except for what it raises. -/
theorem variable_agrees_iff (hval : val_is_signal val = false) (node : Node) :
    (assign_target env node val >>= fun _ => goes_on >>= fun _ => (return val : P Value)).AgreeOn (answering answers)
      is_effect (get >>= fun ev => assign_target env node val >>= fun _ => get >>= fun ev' =>
        if ev'.exception_class ≠ ev.exception_class then return .exception else return val) s ↔
      ∀ u, (assign_target env node val).run (answering answers) s = some ((), u) →
        u.ev.exception_class = s.ev.exception_class := by
  have hget (q : P Value) : (get >>= fun ev => assign_target env node val >>= fun _ => get >>= fun ev' =>
      if ev'.exception_class ≠ ev.exception_class then return .exception else return val).AgreeOn (answering answers)
        is_effect (assign_target env node val >>= fun _ => get >>= fun ev' =>
          if ev'.exception_class ≠ s.ev.exception_class then return .exception else return val) s := ⟨rfl, rfl⟩
  rw [Program.AgreeOn.congr (.refl _ s) (hget (return val)), agreeOn_bind_iff]
  have hbehind (u : State) : (goes_on >>= fun _ => (return val : P Value)).AgreeOn (answering answers) is_effect
      (get >>= fun ev' => if ev'.exception_class ≠ s.ev.exception_class then return .exception else return val) u ↔
        u.ev.exception_class = s.ev.exception_class := by
    have hleft (marks : Bool) : ((if marks then slip else pure ()) >>= fun _ => (return val : P Value)).AgreeOn
        (answering answers) is_effect (return val) u := by
      cases marks <;> exact ⟨rfl, rfl⟩
    refine (Program.AgreeOn.congr (hleft _) ⟨rfl, rfl⟩ : _ ↔ (return val : P Value).AgreeOn (answering answers) is_effect
      (if u.ev.exception_class ≠ s.ev.exception_class then return .exception else return val) u).trans ?_
    by_cases hsame : u.ev.exception_class = s.ev.exception_class
    · rw [if_neg (not_not_intro hsame)]
      exact iff_of_true (.refl _ u) hsame
    · rw [if_pos hsame]
      refine iff_of_false ?_ hsame
      rintro ⟨hrun, -⟩
      cases hrun
      cases hval
  exact ⟨fun h u hrun => (hbehind u).mp (h () u hrun), fun h _ u hrun => (hbehind u).mpr (h u hrun)⟩

/-- A call target is evaluated again where the law sends the setter. -/
theorem call_disagrees (place : Option Place) (hcall : target.call.isSome) :
    ¬ (source_write env target val >>= fun _ => (return val : P Value)).AgreeOn (answering answers) is_effect
      (write_target env target place val) s := by
  rintro ⟨-, hperformed⟩
  have hsource := source_write_performs answers env target val s
  rw [hperformed] at hsource
  cases target with
  | lvar | ivar | gvar => cases hcall
  | attr | element =>
    cases place with
    | none => cases ((congrArg List.head? (seen_get _ s)).trans (seen_step_head rfl _ s)).symm.trans hsource
    | some place => cases (seen_step_head rfl _ s).symm.trans hsource

theorem write_agrees_iff (hval : val_is_signal val = false) (place : Option Place) :
    (source_write env target val >>= fun _ => (return val : P Value)).AgreeOn (answering answers) is_effect
      (write_target env target place val) s ↔ Stores answers env target val s := by
  cases target with
  | lvar span name => exact iff_of_true (.refl _ s) trivial
  | ivar span name => exact variable_agrees_iff hval (.ivar span name)
  | gvar span name => exact variable_agrees_iff hval (.gvar span name)
  | attr span recv method => exact iff_of_false (call_disagrees place rfl) id
  | element span recv indices => exact iff_of_false (call_disagrees place rfl) id

/-- Behind the read the source does what the law does exactly when the operator
is not decided and what it computes is stored. -/
theorem behind_read_agrees_iff {current : Value} (place : Option Place) :
    (check current (do
        if short_circuits (base_operator op) current then return current
        operand_value env span (base_operator op) target.node right current) >>= fun val => check val (do
          source_write env target val
          return val)).AgreeOn (answering answers) is_effect
      (check current (do
        if short_circuits (base_operator op) current then return current
        let val ← operand_value env span (base_operator op) target.node right current
        check val (write_target env target place val))) s ↔
    (GoesOn current s → short_circuits (base_operator op) current = false ∧
      ∀ val u, (operand_value env span (base_operator op) target.node right current).run (answering answers) s =
        some (val, u) → GoesOn val u → Stores answers env target val u) := by
  by_cases hgoes : GoesOn current s
  · refine Iff.trans ?_ ⟨fun h _ => h, fun h => h hgoes⟩
    rw [Program.AgreeOn.congr ((check_goes_on hgoes _).bind _) (check_goes_on hgoes _)]
    cases hdecided : short_circuits (base_operator op) current with
    | true =>
      refine iff_of_false ?_ (by rintro ⟨⟨⟩, -⟩)
      intro hagree
      have hwrite := ((check_goes_on hgoes _).symm.trans hagree).2
      have hsource := source_write_performs answers env target current s
      rw [hwrite] at hsource
      cases hsource
    | false =>
      refine Iff.trans ?_ ⟨fun h => ⟨rfl, h⟩, fun h => h.2⟩
      refine agreeOn_bind_iff.trans (forall_congr' fun val => forall_congr' fun u => imp_congr_right fun _ => ?_)
      by_cases hval : GoesOn val u
      · rw [Program.AgreeOn.congr (check_goes_on hval _) (check_goes_on hval _)]
        have hordinary : val_is_signal val = false := (Bool.or_eq_false_iff.mp hval).2
        exact (write_agrees_iff hordinary place).trans ⟨fun h _ => h, fun h => h hval⟩
      · exact iff_of_true ((check_stops hval _).trans (check_stops hval _).symm) fun h => absurd h hval
  · refine iff_of_true ?_ fun h => absurd h hgoes
    exact ((check_stops hgoes _).bind _).trans ((check_stops hgoes _).trans (check_stops hgoes _).symm)

/-- Answers that evaluate a call target, and assign to it, as the evaluator does. -/
def Unfolds (answers : Oracle evaluator_calls State) (env : Env) (target : Target) : Prop :=
  target.call.isSome →
    (∀ s, (eval_node env (some target.node)).run (answering answers) s =
      (eval_node_body 0 env (some target.node)).run (answering answers) s) ∧
    ∀ val s, (assign_target env target.node val).run (answering answers) s =
      (assign_target_body env target.node val).run (answering answers) s

/-- Writing a call target out changes nothing. -/
theorem op_assign_source_run (h : Unfolds answers env target) :
    (eval_op_assign env span op target.node right).run (answering answers) s =
      (op_assign_source env span op target right).run (answering answers) s := by
  rw [eval_op_assign_eq, op_assign_source]
  cases target with
  | lvar | ivar | gvar => rfl
  | attr | element =>
    obtain ⟨hread, hwrite⟩ := h rfl
    refine run_bind_congr (hread s) fun left_val t => run_bind_congr rfl fun val u => ?_
    refine run_bind_congr rfl fun stop w => ?_
    cases stop with
    | true => rfl
    | false => exact run_bind_congr (run_bind_congr (hwrite val w) fun _ _ => rfl) fun _ _ => rfl

/-- A compound assignment evaluates, reads and writes as the law has it exactly
when one write is due and is stored. -/
theorem op_assign_follows_law_iff (answers : Oracle evaluator_calls State) (env : Env) (span : Span) (op : String)
    (target : Target) (right : Node) (s : State) :
    (Unfolds answers env target → (eval_op_assign env span op target.node right).run (answering answers) s =
      (op_assign_source env span op target right).run (answering answers) s) ∧
    ((op_assign_source env span op target right).AgreeOn (answering answers) is_effect
      (op_assign_law env span op target right) s ↔ OneWrite answers env span op target right s) := by
  refine ⟨op_assign_source_run, ?_⟩
  rw [op_assign_source, op_assign_over, op_assign_law, source_read_eq, bind_assoc, agreeOn_bind_iff]
  constructor
  · intro h current place t hread
    exact (behind_read_agrees_iff place).mp (h (current, place) t hread)
  · rintro h ⟨current, place⟩ t hread
    exact (behind_read_agrees_iff place).mpr (h current place t hread)

end

/-- The state behind `$x = true`. -/
def assigned_state : State := { bare_state with ev := { bare_state.ev with globals := [("x", .bool true)] } }

/-- `$x ||= false` assigns to `$x` where it is true. -/
theorem decided_operator_writes :
    ¬ (op_assign_source 0 no_span "||=" (.gvar no_span "x") (.false no_span)).AgreeOn
      (answering ((evaluator no_builtins).oracle state_machine 2)) is_effect
      (op_assign_law 0 no_span "||=" (.gvar no_span "x") (.false no_span)) assigned_state := by
  rintro ⟨-, hperformed⟩
  have hcount := congrArg List.length hperformed
  revert hcount
  decide

end stoned
