import Stoned.TransportLaw

namespace stoned

open program

/-! The order in which the parts of a call are evaluated. -/

/-- What is called on a receiver that has been evaluated. -/
def call_received (env : Env) (span : Span) (recv_node : Node) (recv : Value) (method : String) (args : List Value)
    (blk : Option Value) : P Value := do
  let subscript ←
    if recv.kind = .array && is_subscript method then array_subscript recv method args (some span)
    else pure none
  match subscript with
  | some result => return result
  | none =>
    let result ← dispatch_method { env, recv, name := method, args, blk, site := some span }
    if val_is_signal result then return result
    write_back env recv_node recv method args result

/-- The law: the receiver, then the arguments from the left, then the block
argument. A nil receiver under safe navigation ends the call first of all. -/
def eval_call_law (env : Env) (span : Span) (recv_node : Node) (method : String) (arg_nodes : List Node)
    (block : Option Node) (safe_nav : Bool) : P Value := do
  if EVAL_MAX_DEPTH < (← get).call_depth then
    eval_raise_class (some span) "SystemStackError" "stack level too deep"
  else
    let literal ← block_of_call env block none
    let recv ← eval_node env (some recv_node)
    check recv do
      if safe_nav && recv.kind = .nil then return .nil
      match ← collect_arguments env no_arguments arg_nodes with
      | .inl signal => return signal
      | .inr acc =>
        match ← (if block.isSome then return literal else block_of_call env none acc.block_pass) with
        | .inl signal => return signal
        | .inr blk => call_received env span recv_node recv method acc.list blk

/-- No expression is evaluated for the arguments or the block argument. -/
def NoOperands (arg_nodes : List Node) (block : Option Node) : Prop :=
  (∀ arg ∈ arg_nodes, (argument_form arg).operand = none) ∧ (block.isSome ∨ arg_nodes = [])

theorem eval_receiver_call_eq (env : Env) (span : Span) (recv_node : Node) (method : String) (args : List Value)
    (blk : Option Value) (safe_nav : Bool) :
    eval_receiver_call env span recv_node method args blk safe_nav =
      eval_node env (some recv_node) >>= fun recv => check recv
        (if safe_nav && recv.kind = .nil then return .nil
          else call_received env span recv_node recv method args blk) := rfl

/-- Arguments without operands are collected without evaluating anything; the
last of them is the block argument. -/
theorem collect_no_operands (env : Env) (acc : Arguments) {arg_nodes : List Node}
    (hnone : ∀ arg ∈ arg_nodes, (argument_form arg).operand = none) :
    ∃ block_pass, (collect_arguments env acc arg_nodes = return .inr { acc with block_pass }) ∧
      (acc.args = [] → arg_nodes ≠ [] ∨ acc.block_pass.isSome → block_pass.isSome) := by
  induction arg_nodes generalizing acc with
  | nil => exact ⟨acc.block_pass, rfl, fun _ h => h.resolve_left (absurd rfl)⟩
  | cons arg arg_nodes ih =>
    by_cases hfull : MAX_ARGS ≤ acc.args.length
    · refine ⟨acc.block_pass, collect_full hfull _, ?_⟩
      intro hempty
      rw [hempty] at hfull
      cases hfull
    · have hform := hnone arg List.mem_cons_self
      cases harg : argument_form arg with
      | block_pass expr =>
        obtain ⟨block_pass, hrest, hsome⟩ := ih { acc with block_pass := some expr }
          fun other hother => hnone other (List.mem_cons_of_mem _ hother)
        refine ⟨block_pass, ?_, fun hempty _ => hsome hempty (.inr rfl)⟩
        rw [collect_cons, if_neg hfull, collect_argument, harg]
        exact hrest
      | splat | keywords | plain =>
        rw [harg] at hform
        cases hform

/-- Without operands the order makes no difference. -/
theorem eval_call_eq_law {arg_nodes : List Node} {block : Option Node} (hnone : NoOperands arg_nodes block) (env : Env)
    (span : Span) (recv_node : Node) (method : String) (safe_nav : Bool) :
    eval_call env span (some recv_node) method arg_nodes block safe_nav =
      eval_call_law env span recv_node method arg_nodes block safe_nav := by
  obtain ⟨hoperands, hblock⟩ := hnone
  cases block with
  | some block =>
    obtain ⟨block_pass, hcollect, -⟩ := collect_no_operands env no_arguments hoperands
    rw [eval_call, eval_call_law, ← no_arguments, hcollect]
    rfl
  | none =>
    obtain hsome | rfl := hblock
    · cases hsome
    · rfl

/-- Answers every expression with the depth, which is one from then on, and
nothing else: an expression tells whether another one came before it. -/
def telling : Oracle evaluator_calls State
  | .eval_node .., s => some (.int (.ofInt s.ev.call_depth), { s with ev := { s.ev with call_depth := 1 } })
  | _, _ => none

/-- A state in which an expression was evaluated, or none. -/
def told (depth : Int) : State := { bare_state with ev := { bare_state.ev with call_depth := depth } }

section
variable (env : Env) (acc : Arguments) (depth : Int)

theorem tell_argument (arg : Node) :
    ∃ reached, (collect_argument env acc arg).run (answering telling) (told depth) =
      some (.inr reached, told (if (argument_form arg).operand.isSome then 1 else depth)) ∧
        ((argument_form arg).operand = none → reached.args = acc.args) := by
  rw [collect_argument]
  cases argument_form arg with
  | block_pass expr => exact ⟨_, rfl, fun _ => rfl⟩
  | splat | keywords | plain => exact ⟨_, rfl, by rintro ⟨⟩⟩

theorem tell_arguments (arg_nodes : List Node) :
    ∃ reached, (collect_arguments env acc arg_nodes).run (answering telling) (told 1) =
      some (.inr reached, told 1) := by
  induction arg_nodes generalizing acc with
  | nil => exact ⟨acc, rfl⟩
  | cons arg arg_nodes ih =>
    rw [collect_cons]
    by_cases hfull : MAX_ARGS ≤ acc.args.length
    · exact ⟨acc, by rw [if_pos hfull]; rfl⟩
    · obtain ⟨middle, hone, -⟩ := tell_argument env acc 1 arg
      obtain ⟨reached, hrest⟩ := ih middle
      rw [ite_self] at hone
      exact ⟨reached, by rw [if_neg hfull, run_bind_some hone]; exact hrest⟩

/-- An operand among the arguments tells. -/
theorem tell_operand {arg_nodes : List Node} (hempty : acc.args = [])
    (hsome : ∃ arg ∈ arg_nodes, (argument_form arg).operand ≠ none) :
    ∃ reached, (collect_arguments env acc arg_nodes).run (answering telling) (told 0) =
      some (.inr reached, told 1) := by
  induction arg_nodes generalizing acc with
  | nil =>
    obtain ⟨arg, hmem, -⟩ := hsome
    cases hmem
  | cons arg arg_nodes ih =>
    have hroom : ¬ MAX_ARGS ≤ acc.args.length := by rw [hempty]; decide
    rw [collect_cons, if_neg hroom]
    obtain ⟨middle, hone, hargs⟩ := tell_argument env acc 0 arg
    by_cases hform : (argument_form arg).operand = none
    · rw [hform] at hone
      rw [run_bind_some hone]
      refine ih middle ((hargs hform).trans hempty) ?_
      obtain ⟨other, hmem, hother⟩ := hsome
      obtain rfl | hmem := List.mem_cons.mp hmem
      · exact absurd hform hother
      · exact ⟨other, hmem, hother⟩
    · obtain ⟨operand, hoperand⟩ := Option.ne_none_iff_exists'.mp hform
      rw [hoperand] at hone
      obtain ⟨reached, hrest⟩ := tell_arguments env middle arg_nodes
      exact ⟨reached, by rw [run_bind_some hone]; exact hrest⟩

theorem tell_block (block : Option Node) (block_pass : Option (Option Node)) :
    ∃ blk, (block_of_call env block block_pass).run (answering telling) (told depth) =
      some (.inr blk, told (if block.isNone ∧ block_pass.isSome then 1 else depth)) := by
  cases block with
  | some block => exact ⟨_, rfl⟩
  | none =>
    cases block_pass with
    | none => exact ⟨_, rfl⟩
    | some expr => exact ⟨_, rfl⟩

/-- Where there are operands, one has been evaluated before the receiver is. -/
theorem tell_call {arg_nodes : List Node} {block : Option Node} (hsome : ¬ NoOperands arg_nodes block) (span : Span)
    (recv_node : Node) (method : String) (safe_nav : Bool) :
    ∃ args blk, (eval_call env span (some recv_node) method arg_nodes block safe_nav).ComesTo (answering telling)
      (told 0) (call_received env span recv_node (.int 1) method args blk) (told 1) := by
  have hcollected : ∃ reached blk u, (collect_arguments env no_arguments arg_nodes).run (answering telling) (told 0) =
      some (.inr reached, u) ∧
        (block_of_call env block reached.block_pass).run (answering telling) u = some (.inr blk, told 1) := by
    by_cases hoperands : ∀ arg ∈ arg_nodes, (argument_form arg).operand = none
    · obtain ⟨block_pass, hcollect, hpass⟩ := collect_no_operands env no_arguments hoperands
      have hblock : ¬ (block.isSome ∨ arg_nodes = []) := fun h => hsome ⟨hoperands, h⟩
      rw [not_or, Option.not_isSome_iff_eq_none, ← Option.isNone_iff_eq_none] at hblock
      obtain ⟨blk, hblk⟩ := tell_block env 0 block block_pass
      rw [if_pos ⟨hblock.1, hpass rfl (.inl hblock.2)⟩] at hblk
      exact ⟨_, blk, told 0, by rw [hcollect]; rfl, hblk⟩
    · push Not at hoperands
      obtain ⟨reached, hcollect⟩ := tell_operand env no_arguments rfl hoperands
      obtain ⟨blk, hblk⟩ := tell_block env 1 block reached.block_pass
      rw [ite_self] at hblk
      exact ⟨reached, blk, told 1, hcollect, hblk⟩
  obtain ⟨reached, blk, u, hcollect, hblk⟩ := hcollected
  refine ⟨reached.list, blk, ?_⟩
  refine .step rfl ((Program.ComesTo.bind hcollect).trans ((Program.ComesTo.bind hblk).trans ?_))
  cases safe_nav <;> exact .step rfl (.step rfl (.now _ _))

/-- By the law none has. -/
theorem tell_law (arg_nodes : List Node) (block : Option Node) (span : Span) (recv_node : Node) (method : String)
    (safe_nav : Bool) :
    ∃ args blk, (eval_call_law env span recv_node method arg_nodes block safe_nav).ComesTo (answering telling)
      (told 0) (call_received env span recv_node (.int 0) method args blk) (told 1) := by
  obtain ⟨literal, hliteral⟩ := tell_block env 0 block none
  rw [if_neg (by rintro ⟨-, ⟨⟩⟩)] at hliteral
  obtain ⟨reached, hcollect⟩ := tell_arguments env no_arguments arg_nodes
  have hblock : ∃ blk, (if block.isSome then (return .inr literal : P (Value ⊕ Option Value))
      else block_of_call env none reached.block_pass).run (answering telling) (told 1) = some (.inr blk, told 1) := by
    by_cases hblock : block.isSome
    · exact ⟨literal, by rw [if_pos hblock]; rfl⟩
    · obtain ⟨blk, hblk⟩ := tell_block env 1 none reached.block_pass
      rw [ite_self] at hblk
      exact ⟨blk, by rw [if_neg hblock]; exact hblk⟩
  obtain ⟨blk, hblk⟩ := hblock
  refine ⟨reached.list, blk, .step rfl ((Program.ComesTo.bind hliteral).trans ?_)⟩
  refine .step rfl (.step rfl ?_)
  cases safe_nav <;>
    exact (Program.ComesTo.bind hcollect).trans ((Program.ComesTo.bind hblk).trans (.now _ _))

/-- A value is called last. -/
theorem call_received_performs (span : Span) (recv_node : Node) (n : Int64) (method : String) (args : List Value)
    (blk : Option Value) :
    (call_received env span recv_node (.int n) method args blk).performed (answering telling) (told 1) =
      [.inr (.dispatch_method { env, recv := .int n, name := method, args, blk, site := some span })] := rfl

end

/-- A call evaluates its parts in the order of the law, whatever they do,
exactly when the receiver is the only one. -/
theorem call_follows_law_iff (env : Env) (span : Span) (recv_node : Node) (method : String) (arg_nodes : List Node)
    (block : Option Node) (safe_nav : Bool) :
    (∀ answers s, (eval_call env span (some recv_node) method arg_nodes block safe_nav).Agree (answering answers)
      (eval_call_law env span recv_node method arg_nodes block safe_nav) s) ↔ NoOperands arg_nodes block := by
  constructor
  · intro hagree
    by_contra hsome
    obtain ⟨args, blk, hcall⟩ := tell_call env hsome span recv_node method safe_nav
    obtain ⟨args', blk', hlaw⟩ := tell_law env arg_nodes block span recv_node method safe_nav
    obtain ⟨before, hbefore⟩ := hcall.performed
    obtain ⟨before', hbefore'⟩ := hlaw.performed
    -- the last operation shows when the receiver was evaluated
    have hperformed := (hagree telling (told 0)).2
    rw [hbefore, hbefore', call_received_performs, call_received_performs] at hperformed
    have hlast := (List.append_inj' hperformed rfl).2
    cases hlast
  · intro hnone answers s
    rw [eval_call_eq_law hnone]
    exact .refl _ s

/-- `nil&.m(1)` evaluates its argument. -/
theorem nil_receiver_evaluates_arguments :
    ¬ (eval_call 0 no_span (some (.nil no_span)) "m" [.int no_span 1] none true).Agree
      (answering ((evaluator no_builtins).oracle state_machine 2))
      (eval_call_law 0 no_span (.nil no_span) "m" [.int no_span 1] none true) bare_state := by
  rintro ⟨-, hperformed⟩
  have hcount := congrArg List.length hperformed
  revert hcount
  decide

end stoned
