import Stoned.Evaluator

namespace stoned

open program

/-! What begin / rescue / else / ensure means, and when the evaluator means it too. -/

/-- How the last attempt at a body ended. -/
inductive Ending where
  /-- otherwise than by an exception -/
  | finished (value : Value) (no_exception : value.kind ≠ .exception)
  /-- by an exception no clause took -/
  | unrescued
  /-- by an exception a clause took, with the clause's result -/
  | rescued (result : Value)

/-- The outcome of the body itself. -/
def Ending.outcome : Ending → Value
  | .finished value _ => value
  | .unrescued | .rescued _ => .exception

/-- The result of the last part that ran. -/
def Ending.result : Ending → Value
  | .finished value _ => value
  | .unrescued => .exception
  | .rescued result => result

def Ending.is_rescued : Ending → Bool
  | .rescued _ => true
  | _ => false

/-- All attempts at a body: how the last one ended, and whether there was one
before it. -/
structure Tries where
  ending : Ending
  retried : Bool

/-- Attempts the body, and again whenever a clause ends in `retry`. -/
def try_body (env : Env) (body : Option Node) (rescues : List Node) : Nat → Bool → P Tries
  | 0, _ => .halt
  | fuel + 1, retried => do
    let value ← eval_node env body
    if h : value.kind = .exception then
      match ← try_rescues env rescues with
      | none => return { ending := .unrescued, retried }
      | some .retry => try_body env body rescues fuel true
      | some result => return { ending := .rescued result, retried }
    else return { ending := .finished value h, retried }

/-- An ensure body runs with no exception in flight. Only its own signal takes
the place of the outcome, whose exception is put back otherwise. -/
def ensure_law (env : Env) (ensure_body : Option Node) (outcome : Value) : P Value := do
  match ensure_body with
  | none => return outcome
  | some ensure_body =>
    let in_flight ← get
    eval_clear_exception
    let last ← eval_node env (some ensure_body)
    if val_is_signal last then return last
    if outcome.kind = .exception then modify (restore_exception in_flight)
    return outcome

/-- The law. The else body follows a last attempt that ended in a value, the
ensure body follows everything. -/
def begin_law (fuel : Nat) (env : Env) (body : Option Node) (rescues : List Node)
    (else_body ensure_body : Option Node) : P Value := do
  let tries ← try_body env body rescues fuel false
  let outcome ←
    if else_body.isSome && !val_is_signal tries.ending.outcome then eval_node env else_body
    else pure tries.ending.result
  ensure_law env ensure_body outcome

/-- The attempts the evaluator makes are those of the law. Its flag is set by
a clause that was entered, in the last attempt or before. -/
theorem attempts_eq (env : Env) (body : Option Node) (rescues : List Node) (fuel : Nat) (rescued : Bool) :
    attempts env body rescues fuel rescued =
      try_body env body rescues fuel rescued >>= fun tries =>
        return (tries.ending.result, tries.retried || tries.ending.is_rescued) := by
  induction fuel generalizing rescued with
  | zero => rfl
  | succ fuel ih =>
    simp only [attempts, try_body, bind_assoc]
    refine congrArg (eval_node env body >>= ·) (funext fun value => ?_)
    by_cases hvalue : value.kind = .exception
    · obtain rfl : value = .exception := by cases value <;> simp_all [Value.kind]
      rw [dif_pos hvalue, bind_assoc]
      refine congrArg (try_rescues env rescues >>= ·) (funext fun result => ?_)
      cases result with
      | none => simp [Ending.result, Ending.is_rescued]
      | some result =>
        cases result with
        | retry => exact ih true
        | _ => simp [Ending.result, Ending.is_rescued]
    · rw [dif_neg hvalue]
      cases value <;> first | exact absurd rfl hvalue | simp [Ending.result, Ending.is_rescued]

/-- Whether the evaluator goes on with the else body. -/
def Tries.runs_else (tries : Tries) : Bool :=
  tries.ending.result.kind ≠ .exception && !(tries.retried || tries.ending.is_rescued)

theorem eval_begin_eq (fuel : Nat) (env : Env) (body : Option Node) (rescues : List Node)
    (else_body ensure_body : Option Node) :
    eval_begin fuel env body rescues else_body ensure_body =
      try_body env body rescues fuel false >>= fun tries =>
        (if tries.runs_else && else_body.isSome then eval_node env else_body
          else pure tries.ending.result) >>= ensure_law env ensure_body := by
  rw [eval_begin, attempts_eq, bind_assoc]
  refine congrArg (try_body env body rescues fuel false >>= ·) (funext fun tries => ?_)
  rw [apply_ite (· >>= ensure_law env ensure_body)]
  cases ensure_body <;> rfl

theorem begin_law_eq (fuel : Nat) (env : Env) (body : Option Node) (rescues : List Node)
    (else_body ensure_body : Option Node) :
    begin_law fuel env body rescues else_body ensure_body =
      try_body env body rescues fuel false >>= fun tries =>
        (if else_body.isSome && !val_is_signal tries.ending.outcome then eval_node env else_body
          else pure tries.ending.result) >>= ensure_law env ensure_body := by
  refine congrArg (try_body env body rescues fuel false >>= ·) (funext fun tries => ?_)
  rw [apply_ite (· >>= ensure_law env ensure_body)]

/-- The two questions asked about the else body have one answer: whether the
last attempt was the first, and whether it ended in a value. -/
def Tries.InStep (tries : Tries) : Prop :=
  tries.ending.outcome.kind = .exception ∨ tries.retried = val_is_signal tries.ending.outcome

theorem Tries.inStep_iff (tries : Tries) :
    tries.InStep ↔ tries.runs_else = !val_is_signal tries.ending.outcome := by
  obtain ⟨ending, retried⟩ := tries
  cases ending with
  | finished value no_exception =>
    simp [InStep, runs_else, Ending.outcome, Ending.result, Ending.is_rescued, no_exception]
  | unrescued =>
    simp [InStep, runs_else, Ending.outcome, Ending.result, Value.kind, val_is_signal, ValueKind.is_signal]
  | rescued result =>
    simp [InStep, runs_else, Ending.outcome, Ending.is_rescued, Value.kind, val_is_signal, ValueKind.is_signal]

/-- Going on with an else body is an evaluation, ending without one is not. -/
theorem else_differs (M : Machine (state_ops.withCalls evaluator_calls) State) (env : Env)
    (else_body ensure_body : Option Node) (outcome : Value) (s : State) :
    (eval_node env else_body >>= ensure_law env ensure_body).performed M s ≠
      (ensure_law env ensure_body outcome).performed M s := by
  intro hperformed
  have hfirst := congrArg List.head? hperformed
  have helse : ((eval_node env else_body >>= ensure_law env ensure_body).performed M s).head? =
      some (.inr (.eval_node env else_body)) := performed_step_head _ _ _
  rw [helse] at hfirst
  cases ensure_body with
  | none => cases hfirst
  | some ensure_body =>
    have hget : ((ensure_law env (some ensure_body) outcome).performed M s).head? = some (.inl .get) :=
      performed_step_head _ _ _
    rw [hget] at hfirst
    cases hfirst

/-- The evaluator follows the law of begin exactly when there is no else body,
or the last attempt raised, or it was the first one and ended in a value, or it
was a later one and ended in a signal. -/
theorem eval_begin_follows_law_iff (answers : Oracle evaluator_calls State) (fuel : Nat) (env : Env)
    (span : Span) (body : Option Node) (rescues : List Node) (else_body ensure_body : Option Node) (s : State) :
    (eval_node_kind fuel env (.begin_ span body rescues else_body ensure_body)).Agree (answering answers)
        (begin_law fuel env body rescues else_body ensure_body) s ↔
      else_body = none ∨ ∀ tries t,
        (try_body env body rescues fuel false).run (answering answers) s = some (tries, t) → tries.InStep := by
  rw [eval_node_kind, eval_begin_eq, begin_law_eq, agree_bind_iff]
  cases else_body with
  | none => simp [Program.Agree.refl]
  | some else_body =>
    simp only [Option.isSome_some, Bool.and_true, Bool.true_and, reduceCtorEq, false_or]
    refine forall_congr' fun tries => forall_congr' fun t => imp_congr_right fun _ => ?_
    rw [Tries.inStep_iff]
    constructor
    · intro hagree
      by_contra hne
      cases hruns : tries.runs_else with
      | true =>
        have hsignal : (!val_is_signal tries.ending.outcome) = false := by simp_all
        rw [hruns, hsignal] at hagree
        exact else_differs _ _ _ _ _ _ hagree.2
      | false =>
        have hsignal : (!val_is_signal tries.ending.outcome) = true := by simp_all
        rw [hruns, hsignal] at hagree
        exact else_differs _ _ _ _ _ _ hagree.2.symm
    · intro heq
      rw [heq]
      exact .refl _ t

/-- `begin; return 1; rescue; else; 2; end` -/
def returning_begin : Node :=
  .begin_ no_span (some (.return_ no_span (some (.int no_span 1)))) [.rescue_ no_span [] none none]
    (some (.int no_span 2)) none

/-- Its else body runs behind the return, and the begin is 2. -/
theorem returning_begin_runs_else :
    ¬ (eval_node_kind 1 0 returning_begin).Agree (no_builtins.machine 3)
      (begin_law 1 0 (some (.return_ no_span (some (.int no_span 1)))) [.rescue_ no_span [] none none]
        (some (.int no_span 2)) none) bare_state := by
  rintro ⟨hrun, -⟩
  have hkinds := congrArg (Option.map fun out => out.1.kind) hrun
  revert hkinds
  decide

end stoned
