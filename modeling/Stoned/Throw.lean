import Stoned.LoopLaw

namespace stoned

open program

/-! How a throw finds its catch. -/

/-- The parts of a run that are evaluated one inside the other: nodes, calls of
blocks and methods, sends and functions of the kernel. -/
inductive Part where
  | node (env : Env) (node : Option Node)
  | block (blk : Value) (args : List Value) (site : Option Span)
  | method (recv method : Value) (owner : Option Ref) (name : String) (args : List Value)
      (blk : Option Value) (site : Option Span)
  | send (send : Send)
  | kernel (env : Env) (name : String) (args : List Value) (blk : Option Value) (site : Option Span)

/-- The call that evaluates a part. -/
def Part.program : Part → P Value
  | .node env n => eval_node env n
  | .block blk args site => call_block blk args site
  | .method recv callee owner name args blk site => call_method_value recv callee owner name args blk site
  | .send request => dispatch_method request
  | .kernel env name args blk site => builtin_kernel env name args blk site

/-- The function the call runs. -/
def Part.code (fuel : Nat) : Part → P Value
  | .node env n => eval_node_body fuel env n
  | .block blk args site => call_block_body blk args site
  | .method recv callee owner name args blk site => call_method_value_body recv callee owner name args blk site
  | .send request => dispatch_method_body request
  | .kernel env name args blk site => builtin_kernel_body fuel env name args blk site

theorem Part.program_run (builtins : Builtins) (depth : Nat) (part : Part) (s : State) :
    part.program.run (builtins.machine (depth + 1)) s =
      (part.code depth).run (builtins.machine depth) s := by
  cases part with
  | node env node => exact run_call builtins depth (.eval_node env node) s
  | block blk args site => exact run_call builtins depth (.call_block blk args site) s
  | method recv method owner name args blk site =>
    exact run_call builtins depth (.call_method_value recv method owner name args blk site) s
  | send send => exact run_call builtins depth (.dispatch_method send) s
  | kernel env name args blk site => exact run_call builtins depth (.builtin_kernel env name args blk site) s

section
variable {answers : Oracle evaluator_calls State} {s : State}

theorem eval_node_body_comes_to (h : s.ev.errored = false) (fuel : Nat) (env : Env) (node : Node) :
    (eval_node_body fuel env (some node)).ComesTo (answering answers) s (eval_node_kind fuel env node) s := by
  have hbind := Program.ComesTo.bind (f := fun ev => if ev.errored then return .nil else eval_node_kind fuel env node)
    (run_get answers s)
  simp only [h, Bool.false_eq_true, if_false] at hbind
  exact hbind

theorem check_comes_to {v : Value} (h : GoesOn v s) (rest : P Value) :
    (check v rest).ComesTo (answering answers) s rest s := by
  have hbind := Program.ComesTo.bind (f := fun stop => if stop then return v else rest) (run_stops answers s v)
  rw [GoesOn] at h
  simp only [h, Bool.false_eq_true, if_false] at hbind
  exact hbind

/-- Statements that ended in values are behind the evaluator. -/
theorem eval_stmts_comes_to {env : Env} {before : List (Option Node)} {t : State} {first last : Value}
    (hrun : (eval_stmts env first before).run (answering answers) s = some (last, t)) (hgoes : GoesOn last t)
    (rest : List (Option Node)) :
    (eval_stmts env first (before ++ rest)).ComesTo (answering answers) s (eval_stmts env last rest) t := by
  induction before generalizing first s with
  | nil =>
    simp only [eval_stmts, pure_eq_ret, run_ret, Option.some.injEq, Prod.mk.injEq] at hrun
    obtain ⟨rfl, rfl⟩ := hrun
    exact .now _ _
  | cons stmt before ih =>
    rw [eval_stmts, run_bind_eq_some_iff] at hrun
    obtain ⟨v, u, hstmt, hrun⟩ := hrun
    by_cases hstop : GoesOn v u
    · rw [(check_comes_to hstop _).run] at hrun
      exact (Program.ComesTo.bind hstmt).trans ((check_comes_to hstop _).trans (ih hrun))
    · rw [check, run_bind_some (run_stops answers u v)] at hrun
      have hstops : (u.ev.errored || val_is_signal v) = true := Bool.of_not_eq_false hstop
      simp only [hstops, if_true, pure_eq_ret, run_ret, Option.some.injEq, Prod.mk.injEq] at hrun
      obtain ⟨rfl, rfl⟩ := hrun
      exact absurd hgoes hstop

end

/-- A part and the part it evaluates at one point of its run. -/
inductive Layer (builtins : Builtins) : Nat → Part → State → Part → State → Prop where
  /-- a statement of a body, behind statements that ended in values -/
  | statement {depth : Nat} {env : Env} {span : Span} {stmts : List Node} {before after : List (Option Node)}
      {stmt : Option Node} {last : Value} {s t : State} (start : s.ev.errored = false)
      (begins : begin_blocks stmts = []) (split : plain_stmts stmts = before ++ stmt :: after)
      (runs : (eval_stmts env .nil before).run (builtins.machine depth) s = some (last, t))
      (goes_on : GoesOn last t) :
      Layer builtins depth (.node env (some (.body span stmts))) s (.node env stmt) t
  /-- the branch of an `if` that is taken -/
  | if_branch {depth : Nat} {env : Env} {span : Span} {cond branch : Node} {then_body else_body : Option Node}
      {c : Value} {s t : State} (start : s.ev.errored = false)
      (test : (eval_node env (some cond)).run (builtins.machine depth) s = some (c, t)) (goes_on : GoesOn c t)
      (taken : (if val_truthy c then then_body else else_body) = some branch) :
      Layer builtins depth (.node env (some (.if_ span cond then_body else_body))) s (.node env (some branch)) t
  /-- the body of a `begin` that has neither an else nor an ensure body -/
  | begin_body {depth : Nat} {env : Env} {span : Span} {body : Option Node} {rescues : List Node} {s : State}
      (start : s.ev.errored = false) :
      Layer builtins (depth + 1) (.node env (some (.begin_ span body rescues none none))) s (.node env body) s
  /-- the body of a block that was called -/
  | block_body {depth : Nat} {span : Span} {params : List Node} {body : Option Node} {closure frame : Env}
      {is_lambda is_proc_object : Bool} {def_file : Option String} {args : List Value} {site : Option Span}
      {s t u v : State}
      (file : (use_file def_file).run (builtins.machine depth) s = some ((), t))
      (enter : (enter_block params closure is_lambda args site).run (builtins.machine depth) t = some (some frame, u))
      (push : (eval_push_frame site "block").run (builtins.machine depth) u = some ((), v)) :
      Layer builtins depth
        (.block (.block (.block span params body) closure is_lambda is_proc_object def_file) args site) s
        (.node frame body) v
  /-- the body of a method that was called -/
  | method_body {depth : Nat} {def_node : Node} {closure frame : Env} {visibility : MethodVisibility}
      {def_file : Option String} {recv : Value} {owner : Option Ref} {name : String} {args : List Value}
      {blk : Option Value} {site : Option Span} {s t u v : State}
      (enter : (enter_method recv (.method def_node closure visibility def_file) owner name args blk site).run
        (builtins.machine depth) s = some (some frame, t))
      (file : (use_file def_file).run (builtins.machine depth) t = some ((), u))
      (push : (enter_body frame name site).run (builtins.machine depth) u = some ((), v)) :
      Layer builtins depth (.method recv (.method def_node closure visibility def_file) owner name args blk site) s
        (.node frame (method_code def_node).2.1) v
  /-- the send of a call on an explicit receiver -/
  | receiver_call {depth : Nat} {env : Env} {span : Span} {recv_node : Node} {method : String}
      {args : List Node} {block : Option Node} {safe_nav : Bool} {acc : Arguments} {blk : Option Value}
      {recv : Value} {s t u v : State} (start : s.ev.errored = false)
      (shallow : s.ev.call_depth ≤ EVAL_MAX_DEPTH)
      (collects : (collect_arguments env { args := [], kwargs := none, block_pass := none } args).run
        (builtins.machine depth) s = some (.inr acc, t))
      (takes_block : (block_of_call env block acc.block_pass).run (builtins.machine depth) t = some (.inr blk, u))
      (receiver : (eval_node env (some recv_node)).run (builtins.machine depth) u = some (recv, v))
      (goes_on : GoesOn recv v) (navigates : (safe_nav && recv.kind = .nil) = false)
      (plain : (recv.kind = .array && is_subscript method) = false) :
      Layer builtins depth (.node env (some (.call span (some recv_node) method args block safe_nav))) s
        (.send { env, recv, name := method, args := acc.list, blk, site := some span }) v
  /-- whatever a part comes to as the last thing it does -/
  | tail {depth : Nat} {outer inner : Part} {s t : State}
      (comes_to : (outer.code depth).ComesTo (builtins.machine depth) s inner.program t) :
      Layer builtins depth outer s inner t

/-- What is left to do hands a throw on. -/
def HandsOn (answers : Oracle evaluator_calls State) (rest : Value → P Value) : Prop :=
  ∀ tag v s, ∃ t, (rest (.throw tag v)).run (answering answers) s = some (.throw tag v, t)

section
variable {answers : Oracle evaluator_calls State}

theorem handsOn_ret : HandsOn answers .ret := fun _ _ s => ⟨s, rfl⟩

theorem handsOn_check (rest : Value → P Value) : HandsOn answers fun v => check v (rest v) := by
  intro tag v s
  have hrun := run_bind_some (f := fun stop => if stop then return .throw tag v else rest (.throw tag v))
    (run_stops answers s (.throw tag v))
  exact ⟨s, hrun.trans (by simp [val_is_signal, Value.kind, ValueKind.is_signal])⟩

theorem handsOn_bind {first rest : Value → P Value} (hfirst : HandsOn answers first)
    (hrest : HandsOn answers rest) : HandsOn answers fun v => first v >>= rest := by
  intro tag v s
  obtain ⟨t, hrun⟩ := hfirst tag v s
  obtain ⟨u, hrun'⟩ := hrest tag v t
  exact ⟨u, (run_bind_some hrun).trans hrun'⟩

/-- Work that always returns changes nothing about that. -/
theorem handsOn_after {work : P Unit} (hwork : ∀ s, ∃ t, work.run (answering answers) s = some ((), t))
    {rest : Value → P Value} (hrest : HandsOn answers rest) :
    HandsOn answers fun v => work >>= fun _ => rest v := by
  intro tag v s
  obtain ⟨t, hrun⟩ := hwork s
  obtain ⟨u, hrun'⟩ := hrest tag v t
  exact ⟨u, (run_bind_some hrun).trans hrun'⟩

theorem statement_comes_to {env : Env} {stmts : List Node} {before after : List (Option Node)}
    {stmt : Option Node} {last : Value} {s t : State} (hbegins : begin_blocks stmts = [])
    (hsplit : plain_stmts stmts = before ++ stmt :: after)
    (hruns : (eval_stmts env .nil before).run (answering answers) s = some (last, t)) (hgoes : GoesOn last t)
    (hstart : s.ev.errored = false) :
    ∃ rest, HandsOn answers rest ∧
      (eval_body env stmts).ComesTo (answering answers) s (eval_node env stmt >>= rest) t := by
  let finish := fun result => check result do
    run_end_blocks env (end_blocks stmts).reverse
    return result
  have hfinish : HandsOn answers finish := handsOn_check _
  refine ⟨_, handsOn_bind (handsOn_check fun v => eval_stmts env v after) hfinish, ?_⟩
  have hnil : GoesOn .nil s := by simp [GoesOn, hstart, val_is_signal, Value.kind, ValueKind.is_signal]
  have hfirst : (eval_body env stmts).ComesTo (answering answers) s (eval_stmts env .nil (plain_stmts stmts) >>= finish) s := by
    rw [eval_body, hbegins]
    exact check_comes_to hnil _
  refine hfirst.trans ?_
  rw [hsplit]
  have hstmt := (eval_stmts_comes_to hruns hgoes (stmt :: after)).before finish
  rw [eval_stmts, bind_assoc] at hstmt
  exact hstmt

theorem if_branch_comes_to {env : Env} {cond branch : Node} {then_body else_body : Option Node} {c : Value}
    {s t : State} (htest : (eval_node env (some cond)).run (answering answers) s = some (c, t))
    (hgoes : GoesOn c t) (htaken : (if val_truthy c then then_body else else_body) = some branch) :
    (eval_if env (fun truthy => truthy) cond then_body else_body).ComesTo (answering answers) s
      (eval_node env (some branch)) t := by
  refine (Program.ComesTo.bind htest).trans ((check_comes_to hgoes _).trans ?_)
  cases htruthy : val_truthy c with
  | true =>
    rw [htruthy, if_pos rfl] at htaken
    simp only [if_true, htaken]
    exact .now _ t
  | false =>
    rw [htruthy, if_neg Bool.false_ne_true] at htaken
    simp only [Bool.false_eq_true, if_false, htaken, Option.isSome_some, if_true]
    exact .now _ t

/-- What the clauses make of what the body came to. -/
def behind_body (env : Env) (body : Option Node) (rescues : List Node) (fuel : Nat) : Value → P (Value × Bool)
  | .exception => do
    match ← try_rescues env rescues with
    | none => return (.exception, false)
    | some .retry => attempts env body rescues fuel true
    | some result => return (result, true)
  | result => return (result, false)

theorem begin_body_comes_to (fuel : Nat) (env : Env) (body : Option Node) (rescues : List Node) (s : State) :
    ∃ rest, HandsOn answers rest ∧
      (eval_begin (fuel + 1) env body rescues none none).ComesTo (answering answers) s
        (eval_node env body >>= rest) s := by
  refine ⟨fun v => behind_body env body rescues fuel v >>= fun tried => return tried.1, ?_, ?_⟩
  · exact fun tag v t => ⟨t, rfl⟩
  · have heq : eval_begin (fuel + 1) env body rescues none none =
        attempts env body rescues (fuel + 1) false >>= fun tried => return tried.1 := by
      simp [eval_begin]
    rw [heq, attempts, bind_assoc]
    exact .now _ s

theorem handsOn_block_result (is_lambda is_proc_object : Bool) (site : Option Span) :
    HandsOn answers (block_result is_lambda is_proc_object site) := fun _ _ s => ⟨s, rfl⟩

theorem block_body_comes_to (span : Span) {params : List Node} {body : Option Node} {closure frame : Env}
    {is_lambda is_proc_object : Bool} {def_file : Option String} {args : List Value} {site : Option Span}
    {s t u v : State} (hfile : (use_file def_file).run (answering answers) s = some ((), t))
    (henter : (enter_block params closure is_lambda args site).run (answering answers) t = some (some frame, u))
    (hpush : (eval_push_frame site "block").run (answering answers) u = some ((), v)) :
    ∃ rest, HandsOn answers rest ∧
      (call_block_body (.block (.block span params body) closure is_lambda is_proc_object def_file) args site).ComesTo
        (answering answers) s (eval_node frame body >>= rest) v := by
  let restore : P Unit := modify fun ev => { ev with current_file := s.ev.current_file }
  refine ⟨fun result => eval_pop_frame >>= fun _ => restore >>= fun _ =>
    block_result is_lambda is_proc_object site result, ?_, ?_⟩
  · exact handsOn_after (fun s => ⟨_, run_modify answers s _⟩)
      (handsOn_after (fun s => ⟨_, run_modify answers s _⟩) (handsOn_block_result is_lambda is_proc_object site))
  · exact (Program.ComesTo.bind (run_get answers s)).trans ((Program.ComesTo.bind hfile).trans
      ((Program.ComesTo.bind henter).trans (Program.ComesTo.bind hpush)))

theorem method_body_comes_to {def_node : Node} {closure frame : Env} {visibility : MethodVisibility}
    {def_file : Option String} {recv : Value} {owner : Option Ref} {name : String} {args : List Value}
    {blk : Option Value} {site : Option Span} {s t u v : State}
    (henter : (enter_method recv (.method def_node closure visibility def_file) owner name args blk site).run
      (answering answers) s = some (some frame, t))
    (hfile : (use_file def_file).run (answering answers) t = some ((), u))
    (hpush : (enter_body frame name site).run (answering answers) u = some ((), v)) :
    ∃ rest, HandsOn answers rest ∧
      (call_method_value_body recv (.method def_node closure visibility def_file) owner name args blk site).ComesTo
        (answering answers) s (eval_node frame (method_code def_node).2.1 >>= rest) v := by
  let restore : P Unit := modify fun ev => { ev with current_file := t.ev.current_file }
  refine ⟨fun result => leave_body >>= fun _ => restore >>= fun _ =>
    return method_result blk.isSome frame result, ?_, ?_⟩
  · exact handsOn_after (fun s => ⟨_, rfl⟩)
      (handsOn_after (fun s => ⟨_, run_modify answers s _⟩) fun tag v s => ⟨s, rfl⟩)
  · refine (Program.ComesTo.bind henter).trans ((Program.ComesTo.bind (run_get answers t)).trans
      ((Program.ComesTo.bind hfile).trans ?_))
    have hbody := (Program.ComesTo.bind (f := fun _ => eval_node frame (method_code def_node).2.1 >>= fun result =>
      leave_body >>= fun _ => return result) hpush).before
      fun result => restore >>= fun _ => return method_result blk.isSome frame result
    simp only [bind_assoc, pure_bind] at hbody
    simp only [run_method_body, bind_assoc, pure_bind]
    exact hbody

theorem receiver_call_comes_to {env : Env} {span : Span} {recv_node : Node} {method : String}
    {args : List Node} {block : Option Node} {safe_nav : Bool} {acc : Arguments} {blk : Option Value}
    {recv : Value} {s t u v : State} (hshallow : s.ev.call_depth ≤ EVAL_MAX_DEPTH)
    (hcollects : (collect_arguments env { args := [], kwargs := none, block_pass := none } args).run
      (answering answers) s = some (.inr acc, t))
    (htakes : (block_of_call env block acc.block_pass).run (answering answers) t = some (.inr blk, u))
    (hreceiver : (eval_node env (some recv_node)).run (answering answers) u = some (recv, v))
    (hgoes : GoesOn recv v) (hnavigates : (safe_nav && recv.kind = .nil) = false)
    (hplain : (recv.kind = .array && is_subscript method) = false) :
    ∃ rest, HandsOn answers rest ∧
      (eval_call env span (some recv_node) method args block safe_nav).ComesTo (answering answers) s
        (dispatch_method { env, recv, name := method, args := acc.list, blk, site := some span } >>= rest) v := by
  refine ⟨fun result => if val_is_signal result then return result
    else write_back env recv_node recv method acc.list result, fun tag v s => ⟨s, rfl⟩, ?_⟩
  refine (Program.ComesTo.bind (run_get answers s)).trans ?_
  rw [if_neg (Int.not_lt.mpr hshallow)]
  refine (Program.ComesTo.bind hcollects).trans ((Program.ComesTo.bind htakes).trans ?_)
  refine (Program.ComesTo.bind hreceiver).trans ((check_comes_to hgoes _).trans ?_)
  simp only [hnavigates, hplain, Bool.false_eq_true, if_false, pure_bind]
  exact .now _ v

/-- A part comes to the part inside it, and hands on what that throws. -/
theorem Layer.comes_to {builtins : Builtins} {depth : Nat} {outer inner : Part} {s t : State}
    (h : Layer builtins depth outer s inner t) :
    ∃ rest, HandsOn ((evaluator builtins).oracle state_machine depth) rest ∧
      (outer.code depth).ComesTo (builtins.machine depth) s (inner.program >>= rest) t := by
  cases h with
  | statement start begins split runs goes_on =>
    obtain ⟨rest, hrest, hcomes⟩ := statement_comes_to begins split runs goes_on start
    exact ⟨rest, hrest, (eval_node_body_comes_to start _ _ _).trans hcomes⟩
  | if_branch start test goes_on taken =>
    refine ⟨.ret, handsOn_ret, (eval_node_body_comes_to start _ _ _).trans ?_⟩
    have hcomes := if_branch_comes_to test goes_on taken
    rw [← bind_pure (eval_node _ _)] at hcomes
    exact hcomes
  | begin_body start =>
    obtain ⟨rest, hrest, hcomes⟩ := begin_body_comes_to _ _ _ _ s
    exact ⟨rest, hrest, (eval_node_body_comes_to start _ _ _).trans hcomes⟩
  | block_body file enter push =>
    simp only [Part.code]
    exact block_body_comes_to _ file enter push
  | method_body enter file push => exact method_body_comes_to enter file push
  | receiver_call start shallow collects takes_block receiver goes_on navigates plain =>
    obtain ⟨rest, hrest, hcomes⟩ :=
      receiver_call_comes_to shallow collects takes_block receiver goes_on navigates plain
    exact ⟨rest, hrest, (eval_node_body_comes_to start _ _ _).trans hcomes⟩
  | tail comes_to => exact ⟨.ret, handsOn_ret, (bind_pure inner.program).symm ▸ comes_to⟩

end

/-- A part throws. -/
def Part.Throws (builtins : Builtins) (depth : Nat) (part : Part) (s : State) (tag : Option String)
    (v : Value) (t : State) : Prop :=
  part.program.run (builtins.machine depth) s = some (.throw tag v, t)

/-- Parts one inside the other, any number deep. -/
inductive Nest (builtins : Builtins) : Nat → Part → State → Nat → Part → State → Prop where
  | here (depth : Nat) (part : Part) (s : State) : Nest builtins depth part s depth part s
  | inside {depth depth' : Nat} {outer middle inner : Part} {s t u : State}
      (layer : Layer builtins depth outer s middle t) (nest : Nest builtins depth middle t depth' inner u) :
      Nest builtins (depth + 1) outer s depth' inner u

/-- What is thrown inside any number of parts leaves the outermost unchanged. -/
theorem Nest.throws {builtins : Builtins} {depth depth' : Nat} {outer inner : Part} {s t u : State}
    {tag : Option String} {v : Value} (h : Nest builtins depth outer s depth' inner t)
    (hthrows : inner.Throws builtins depth' t tag v u) : ∃ w, outer.Throws builtins depth s tag v w := by
  induction h with
  | here => exact ⟨u, hthrows⟩
  | inside layer _ ih =>
    obtain ⟨w, hmiddle⟩ := ih hthrows
    obtain ⟨rest, hrest, hcomes⟩ := layer.comes_to
    obtain ⟨x, hrun⟩ := hrest tag v w
    refine ⟨x, ?_⟩
    rw [Part.Throws, Part.program_run, hcomes.run, run_bind_some hmiddle]
    exact hrun

/-- `catch` answers what its block throws at its tag. -/
theorem catch_catches {builtins : Builtins} {depth : Nat} {blk : Value} {args : List Value}
    {env : Env} {site : Option Span} {s t : State} {tag : Option String} {v : Value}
    (hmatch : tags_match (tag_of args.head?) tag = true)
    (hthrows : (Part.block blk args site).Throws builtins depth s tag v t) :
    (builtin_kernel env "catch" args (some blk) site).run (builtins.machine (depth + 1)) s = some (v, t) := by
  have hcall := Part.program_run builtins depth (.kernel env "catch" args (some blk) site) s
  have hcatch : (kernel_catch args (some blk) site).run (builtins.machine depth) s = some (v, t) := by
    refine (run_bind_some hthrows).trans ?_
    simp only [hmatch, if_true]
    rfl
  exact hcall.trans hcatch

/-- What a body's outcome asks of the loop around it: a value or `next` goes
on, `break` ends the loop with its value, every other signal as it is. -/
def outward : Value → Option Value
  | .brk wrapped => some wrapped
  | .next _ => none
  | v => if val_is_signal v then some v else none

theorem loop_end_of_outward {outcome : Value} (h : outward outcome = none) : loop_end outcome = none := by
  cases outcome with
  | brk | ret | exception => cases h
  | _ => rfl

/-- A loop returns, within some number of turns. -/
def LoopForm.Returns (form : LoopForm) (answers : Oracle evaluator_calls State) (s : State) (result : Value)
    (t : State) : Prop :=
  ∃ fuel, (form.code fuel).run (answering answers) s = some (result, t)

/-- A loop returns what its last turn ends it with. -/
theorem LoopForm.returns_of_last_turn {form : LoopForm} {answers : Oracle evaluator_calls State}
    {s u t : State} {j : form.Turn} {result : Value}
    (hturns : (form.loop.endingOn outward).Turns (answering answers) form.first s j u)
    (hlast : form.loop.LastTurn (answering answers) j u result t) : form.Returns answers s result t := by
  have hends : form.loop.ends = loop_end := by cases form <;> rfl
  have hloop := hturns.endingOn fun outcome h => hends ▸ loop_end_of_outward h
  obtain ⟨fuel, hrun⟩ := (Loop.run_iff form.first s t result).mpr ⟨j, u, hloop, hlast⟩
  exact ⟨fuel, form.code_eq fuel ▸ hrun⟩

/-- Behind turns that went on, a loop ends where its test ends it, and at once
with the body's `break`, `return` or exception. -/
structure LoopForm.EndsAtOnce (form : LoopForm) : Prop where
  done : ∀ {answers s u j}, (form.loop.endingOn outward).Turns (answering answers) form.first s j u →
    ∀ {result t}, (form.loop.enter j).run (answering answers) u = some (some result, t) →
      form.Returns answers s result t
  left : ∀ {answers s u j}, (form.loop.endingOn outward).Turns (answering answers) form.first s j u →
    ∀ {outcome v w result t}, (form.loop.enter j).run (answering answers) u = some (none, v) →
      (form.loop.body j).run (answering answers) v = some (outcome, w) → outward outcome = none →
      (form.loop.leave j outcome).run (answering answers) w = some (some result, t) →
      form.Returns answers s result t
  broken : ∀ {answers s u j}, (form.loop.endingOn outward).Turns (answering answers) form.first s j u →
    ∀ {wrapped v t}, (form.loop.enter j).run (answering answers) u = some (none, v) →
      (form.loop.body j).run (answering answers) v = some (.brk wrapped, t) → form.Returns answers s wrapped t
  returned : ∀ {answers s u j}, (form.loop.endingOn outward).Turns (answering answers) form.first s j u →
    ∀ {wrapped target v t}, (form.loop.enter j).run (answering answers) u = some (none, v) →
      (form.loop.body j).run (answering answers) v = some (.ret wrapped target, t) →
      form.Returns answers s (.ret wrapped target) t
  raised : ∀ {answers s u j}, (form.loop.endingOn outward).Turns (answering answers) form.first s j u →
    ∀ {v t}, (form.loop.enter j).run (answering answers) u = some (none, v) →
      (form.loop.body j).run (answering answers) v = some (.exception, t) → form.Returns answers s .exception t

theorem LoopForm.ends_at_once (form : LoopForm) : form.EndsAtOnce := by
  have hends : form.loop.ends = loop_end := by cases form <;> rfl
  constructor
  · intro _ _ _ _ hturns _ _ henter
    exact returns_of_last_turn hturns (.done henter)
  · intro _ _ _ _ hturns _ _ _ _ _ henter hbody hgoes hleave
    exact returns_of_last_turn hturns (.left henter hbody (hends ▸ loop_end_of_outward hgoes) hleave)
  · intro _ _ _ _ hturns _ _ _ henter hbody
    exact returns_of_last_turn hturns (.outcome henter hbody (hends ▸ rfl))
  · intro _ _ _ _ hturns _ _ _ _ henter hbody
    exact returns_of_last_turn hturns (.outcome henter hbody (hends ▸ rfl))
  · intro _ _ _ _ hturns _ _ henter hbody
    exact returns_of_last_turn hturns (.outcome henter hbody (hends ▸ rfl))

/-- `throw :done, 7` -/
def throwing_node : Node :=
  .call no_span none "throw" [.symbol no_span "done", .int no_span 7] none false

/-- A state with the classes Exception and StopIteration, and an instance of
the latter in `$e`. -/
def stopping_state : State :=
  let exception : RubyClass := {
    name := "Exception", superclass := none, class_env := none, prepended_modules := []
    included_modules := [], extended_modules := [], is_module := false }
  { bare_state with
    ev := { bare_state.ev with
      classes := [exception, { exception with name := "StopIteration", superclass := some 0 }]
      objects := [{
        klass := .klass 1, ivars := [("message", val_string "done")], singleton_env := none
        native := none, frozen := false }]
      globals := [("e", .object 0)] }
    envs := (bare_state.envs.env_define 0 "Exception" (.klass 0)).env_define 0 "StopIteration" (.klass 1) }

/-- The text of a string is the string itself. -/
def string_builtins : Builtins
  | .val_to_s (.string sval ..) => return sval
  | _ => .halt

/-- `{ raise $e }` -/
def raising_block : Value :=
  .block (.block no_span [] (some (.call no_span none "raise" [.gvar no_span "e"] none false))) 0 false false none

end stoned
