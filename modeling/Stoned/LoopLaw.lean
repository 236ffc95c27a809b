import Stoned.BeginLaw
import Stoned.Program.Loop

namespace stoned

open program

/-! The loops of the evaluator, and when they end. -/

/-- The outcomes of a body that end the evaluator's loops, with the loop's result. -/
def loop_end : Value → Option Value
  | .brk wrapped => some wrapped
  | .ret wrapped target_env => some (.ret wrapped target_env)
  | .exception => some .exception
  | _ => none

/-- The loop constructs: `while` and `until` with the test before or behind the
body, `for` over an array or over integers, and Kernel#loop. -/
inductive LoopForm where
  | while_ (until_ : Bool) (env : Env) (cond : Node) (body : Option Node) (post_test : Bool)
  | for_array (env : Env) (target : Node) (body : Option Node) (array : Ref)
  | for_range (env : Env) (target : Node) (body : Option Node) (lo hi : Int64) (exclusive : Bool)
  | kernel_loop (blk : Value) (site : Option Span)

namespace LoopForm

/-- The evaluator's function for a form, from its first turn on. -/
def code : LoopForm → Nat → P Value
  | while_ until_ env cond body post_test, fuel => eval_while until_ env cond body post_test fuel
  | for_array env target body array, fuel => stoned.for_array env target body array fuel 0 .nil
  | for_range env target body lo hi exclusive, fuel => stoned.for_range env target body hi exclusive fuel lo .nil
  | kernel_loop blk site, fuel => stoned.kernel_loop blk site fuel

/-- What tells the turns of a form apart. -/
def Turn : LoopForm → Type
  | while_ .. | kernel_loop .. => Unit
  | for_array .. => Nat × Value
  | for_range .. => Int64 × Value

def first : (form : LoopForm) → form.Turn
  | while_ .. => ()
  | for_array .. => (0, .nil)
  | for_range _ _ _ lo _ _ => (lo, .nil)
  | kernel_loop .. => ()

/-- The test of a loop: nothing when it goes on. -/
def test (until_ : Bool) (env : Env) (cond : Node) : P (Option Value) := do
  let c ← eval_node env (some cond)
  if ← stops c then return some c
  if val_truthy c != until_ then return none else return some .nil

/-- Binds the variable of a `for`, if there is an item. -/
def bind_item (env : Env) (target : Node) (result : Value) (item : Option Value) : P (Option Value) := do
  match item with
  | none => return some result
  | some item =>
    assign_target env target item
    goes_on
    return none

/-- The value of a `for` behind a turn. -/
def turn_value : Value → Value
  | .next _ => .nil
  | v => v

/-- One call of the block of Kernel#loop. A StopIteration counts as `break`. -/
def call_loop_block (blk : Value) (site : Option Span) : P Value := do
  match ← call_block blk [] site with
  | .exception =>
    if ← value_is_a_named_class (← get).current_exception "StopIteration" then
      eval_clear_exception
      return .brk .nil
    else return .exception
  | v => return v

/-- The loop of a form. -/
def loop : (form : LoopForm) → Loop (state_ops.withCalls evaluator_calls) form.Turn Value Value
  | while_ until_ env cond body post_test => {
      enter := fun _ => if post_test then return none else test until_ env cond
      body := fun _ => eval_node env body
      ends := loop_end
      leave := fun _ _ => if post_test then test until_ env cond else return none
      next := fun _ _ => () }
  | for_array env target body array => {
      enter := fun (i, result) => do bind_item env target result ((← get).elems array)[i]?
      body := fun _ => eval_node env body
      ends := loop_end
      leave := fun _ _ => return none
      next := fun (i, _) outcome => (i + 1, turn_value outcome) }
  | for_range env target body _ hi exclusive => {
      enter := fun (i, result) =>
        bind_item env target result (if if exclusive then i < hi else i ≤ hi then some (.int i) else none)
      body := fun _ => eval_node env body
      ends := loop_end
      leave := fun _ _ => return none
      next := fun (i, _) outcome => (i + 1, turn_value outcome) }
  | kernel_loop blk site => {
      enter := fun _ => return none
      body := fun _ => call_loop_block blk site
      ends := loop_end
      leave := fun _ _ => return none
      next := fun _ _ => () }

end LoopForm

/-- Continuing with a loop's test. -/
theorem loop_test_eq (until_ : Bool) (env : Env) (cond : Node) (rest : P Value) :
    loop_test until_ env cond rest = LoopForm.test until_ env cond >>= fun
      | some result => return result
      | none => rest := by
  simp only [loop_test, check, LoopForm.test, bind_assoc]
  refine congrArg (eval_node env (some cond) >>= ·) (funext fun c => ?_)
  refine congrArg (stops c >>= ·) (funext fun stop => ?_)
  cases stop with
  | true => rfl
  | false => cases val_truthy c != until_ <;> simp

theorem eval_while_eq (until_ : Bool) (env : Env) (cond : Node) (body : Option Node) (post_test : Bool)
    (fuel : Nat) :
    eval_while until_ env cond body post_test fuel =
      (LoopForm.while_ until_ env cond body post_test).loop.program fuel () := by
  induction fuel with
  | zero => rfl
  | succ fuel ih =>
    refine Eq.trans ?_ (Loop.program_succ _ fuel ()).symm
    cases post_test with
    | true =>
      refine congrArg (eval_node env body >>= ·) (funext fun outcome => ?_)
      cases outcome with
      | brk | ret | exception => rfl
      | _ =>
        refine (loop_test_eq until_ env cond _).trans ?_
        refine congrArg (LoopForm.test until_ env cond >>= ·) (funext fun tested => ?_)
        cases tested with
        | some result => rfl
        | none => exact ih
    | false =>
      refine (loop_test_eq until_ env cond _).trans ?_
      refine congrArg (LoopForm.test until_ env cond >>= ·) (funext fun tested => ?_)
      cases tested with
      | some result => rfl
      | none =>
        refine congrArg (eval_node env body >>= ·) (funext fun outcome => ?_)
        cases outcome with
        | brk | ret | exception => rfl
        | _ => exact ih

/-- A turn of a `for` binds the item and runs the body. -/
theorem for_turn_bind (env : Env) (target : Node) (body : Option Node) (result item : Value)
    (rest : Value → P Value) :
    (for_turn env target body item >>= fun
      | .inl result => return result
      | .inr result => rest result) =
      LoopForm.bind_item env target result (some item) >>= fun
        | some result => return result
        | none => eval_node env body >>= fun outcome =>
          match loop_end outcome with
          | some result => return result
          | none => rest (LoopForm.turn_value outcome) := by
  simp only [for_turn, LoopForm.bind_item, bind_assoc, pure_eq_ret, ret_bind]
  refine congrArg (assign_target env target item >>= ·) (funext fun _ => ?_)
  refine congrArg (goes_on >>= ·) (funext fun _ => ?_)
  refine congrArg (eval_node env body >>= ·) (funext fun outcome => ?_)
  cases outcome <;> rfl

theorem for_array_eq (env : Env) (target : Node) (body : Option Node) (array : Ref) (fuel i : Nat)
    (result : Value) :
    for_array env target body array fuel i result =
      (LoopForm.for_array env target body array).loop.program fuel (i, result) := by
  induction fuel generalizing i result with
  | zero => rfl
  | succ fuel ih =>
    refine Eq.trans ?_ (Loop.program_succ _ fuel (i, result)).symm
    refine Eq.trans ?_ (bind_assoc get _ _).symm
    refine congrArg (get >>= ·) (funext fun ev => ?_)
    cases (ev.elems array)[i]? with
    | none => simp only [LoopForm.bind_item, pure_eq_ret, ret_bind]
    | some item =>
      simp only
      refine (for_turn_bind env target body result item (for_array env target body array fuel (i + 1))).trans ?_
      refine congrArg (LoopForm.bind_item env target result (some item) >>= ·) (funext fun entered => ?_)
      cases entered with
      | some result => rfl
      | none =>
        refine congrArg (eval_node env body >>= ·) (funext fun outcome => ?_)
        cases outcome with
        | brk | ret | exception => rfl
        | _ => exact ih _ _

theorem for_range_eq (env : Env) (target : Node) (body : Option Node) (lo hi : Int64) (exclusive : Bool)
    (fuel : Nat) (i : Int64) (result : Value) :
    for_range env target body hi exclusive fuel i result =
      (LoopForm.for_range env target body lo hi exclusive).loop.program fuel (i, result) := by
  induction fuel generalizing i result with
  | zero => rfl
  | succ fuel ih =>
    refine Eq.trans ?_ (Loop.program_succ _ fuel (i, result)).symm
    by_cases hin : if exclusive then i < hi else i ≤ hi
    · simp only [for_range, LoopForm.loop, if_pos hin]
      refine (for_turn_bind env target body result (.int i) (for_range env target body hi exclusive fuel (i + 1))).trans ?_
      refine congrArg (LoopForm.bind_item env target result (some (.int i)) >>= ·) (funext fun entered => ?_)
      cases entered with
      | some result => rfl
      | none =>
        refine congrArg (eval_node env body >>= ·) (funext fun outcome => ?_)
        cases outcome with
        | brk | ret | exception => rfl
        | _ => exact ih _ _
    · simp only [for_range, LoopForm.loop, if_neg hin, LoopForm.bind_item, pure_eq_ret, ret_bind]

theorem kernel_loop_eq (blk : Value) (site : Option Span) (fuel : Nat) :
    kernel_loop blk site fuel = (LoopForm.kernel_loop blk site).loop.program fuel () := by
  induction fuel with
  | zero => rfl
  | succ fuel ih =>
    refine Eq.trans ?_ (Loop.program_succ _ fuel ()).symm
    refine Eq.trans ?_ (bind_assoc (call_block blk [] site) _ _).symm
    refine congrArg (call_block blk [] site >>= ·) (funext fun outcome => ?_)
    cases outcome with
    | exception =>
      simp only [bind_assoc]
      refine congrArg (get >>= ·) (funext fun ev => ?_)
      refine congrArg (value_is_a_named_class ev.current_exception "StopIteration" >>= ·) (funext fun stop => ?_)
      cases stop <;> rfl
    | brk | ret => rfl
    | _ => exact ih

/-- The evaluator's loops are the loops of their forms. -/
theorem LoopForm.code_eq (form : LoopForm) (fuel : Nat) :
    form.code fuel = form.loop.program fuel form.first := by
  cases form with
  | while_ until_ env cond body post_test => exact eval_while_eq until_ env cond body post_test fuel
  | for_array env target body array => exact for_array_eq env target body array fuel 0 .nil
  | for_range env target body lo hi exclusive => exact for_range_eq env target body lo hi exclusive fuel lo .nil
  | kernel_loop blk site => exact kernel_loop_eq blk site fuel

end stoned
