import Stoned.KeepingNode

namespace stoned

open program

/-! The stacks of frames and of active definitions are balanced as long as
nothing is pushed on a full one. -/

/-- What a push leaves of the evaluator. -/
def Eval.with_frame (site : Option Span) (label : String) (ev : Eval) : Eval :=
  if ev.frames.length < EVAL_MAX_DEPTH then
    { ev with frames := {
        line := site.elim 0 Span.line, col := site.elim 0 Span.col, label } :: ev.frames }
  else ev

def Eval.with_active_def (env : Env) (ev : Eval) : Eval :=
  if ev.active_defs.length < EVAL_MAX_DEPTH then { ev with active_defs := env :: ev.active_defs } else ev

section
variable (env : Env) (site : Option Span) (label : String) (ev : Eval)

@[simp] theorem with_active_def_frames : (ev.with_active_def env).frames = ev.frames := by
  unfold Eval.with_active_def
  split <;> rfl

@[simp] theorem with_active_def_current_file : (ev.with_active_def env).current_file = ev.current_file := by
  unfold Eval.with_active_def
  split <;> rfl

@[simp] theorem with_active_def_call_depth : (ev.with_active_def env).call_depth = ev.call_depth := by
  unfold Eval.with_active_def
  split <;> rfl

@[simp] theorem with_frame_current_file : (ev.with_frame site label).current_file = ev.current_file := by
  unfold Eval.with_frame
  split <;> rfl

@[simp] theorem with_frame_call_depth : (ev.with_frame site label).call_depth = ev.call_depth := by
  unfold Eval.with_frame
  split <;> rfl

/-- A frame that found room is what a pop takes off again. -/
theorem with_frame_tail {ev : Eval} (hroom : ev.frames.length < EVAL_MAX_DEPTH) :
    (ev.with_frame site label).frames.tail = ev.frames := by
  rw [Eval.with_frame, if_pos hroom, List.tail_cons]

end

/-- The evaluator as it is when the body of a method begins, and when it has ended. -/
def Eval.entered (frame : Env) (name : String) (site : Option Span) (ev : Eval) : Eval :=
  (Eval.with_active_def frame { ev with call_depth := ev.call_depth + 1 }).with_frame site name

def Eval.left (ev : Eval) : Eval :=
  { ev with
    frames := ev.frames.tail
    active_defs := ev.active_defs.tail
    call_depth := ev.call_depth - 1 }

section
variable {K : Keep (state_ops.withCalls evaluator_calls) State} [Guard K] {α : Type}

theorem run_modify_of {f : Eval → Eval} {s t : State} {u : Unit} (h : (modify f).run K.machine s = some (u, t)) :
    t = { s with ev := f s.ev } := by
  obtain ⟨ev, v, hget, hset⟩ := run_bind_eq_some_iff.mp h
  cases run_op hget
  cases run_op hset
  rfl

theorem modify_runs (f : Eval → Eval) (s : State) :
    (modify f).run K.machine s = some ((), { s with ev := f s.ev }) := by
  have hget : get.run K.machine s = some (s.ev, s) :=
    (run_perform (S := state_ops.withCalls evaluator_calls) (.inl .get) s).trans (Guard.op .get s)
  have hset : (set (f s.ev)).run K.machine s = some ((), { s with ev := f s.ev }) :=
    (run_perform (S := state_ops.withCalls evaluator_calls) (.inl (.set (f s.ev))) s).trans (Guard.op (.set (f s.ev)) s)
  exact (run_bind_some hget).trans hset

theorem enter_body_runs (frame : Env) (name : String) (site : Option Span) (s : State) :
    (enter_body frame name site).run K.machine s = some ((), { s with ev := s.ev.entered frame name site }) := by
  have hpush := modify_runs (K := K) (Eval.with_frame site name)
  have hdef := modify_runs (K := K) (Eval.with_active_def frame)
  exact (run_bind_some (modify_runs _ s)).trans ((run_bind_some (hdef _)).trans (hpush _))

theorem leave_body_runs (s : State) : leave_body.run K.machine s = some ((), { s with ev := s.ev.left }) :=
  (run_bind_some (modify_runs _ s)).trans ((run_bind_some (modify_runs _ _)).trans (modify_runs _ _))

/-- The run of a method's body. -/
theorem run_method_body_cases {frame : Env} {name : String} {body : Option Node} {site : Option Span} {s t : State}
    {v : Value} (h : (run_method_body frame name body site).run K.machine s = some (v, t)) :
    ∃ u : State, (eval_node frame body).run K.machine { s with ev := s.ev.entered frame name site } = some (v, u) ∧
      t = { u with ev := u.ev.left } := by
  rw [run_method_body, run_bind_some (enter_body_runs frame name site s)] at h
  obtain ⟨result, u, hbody, hleave⟩ := run_bind_eq_some_iff.mp h
  rw [run_bind_some (leave_body_runs u)] at hleave
  cases hleave
  exact ⟨u, hbody, rfl⟩

def Eval.in_file (def_file : Option String) (ev : Eval) : Eval :=
  if def_file.isSome then { ev with current_file := def_file } else ev

theorem use_file_runs (def_file : Option String) (s : State) :
    (use_file def_file).run K.machine s = some ((), { s with ev := s.ev.in_file def_file }) := by
  cases def_file with
  | none => rfl
  | some file => exact modify_runs (fun ev => { ev with current_file := some file }) s

end

/-- A push finds room on its stack. -/
def room : Watch (state_ops.withCalls evaluator_calls) State where
  holds p s :=
    (∀ site label next, p = eval_push_frame site label >>= next → s.ev.frames.length < EVAL_MAX_DEPTH) ∧
      ∀ env next, p = push_active_def env >>= next → s.ev.active_defs.length < EVAL_MAX_DEPTH
  before := by
    rintro α β p f s ⟨hframes, hdefs⟩
    refine ⟨fun site label next hp => ?_, fun env next hp => ?_⟩
    · exact hframes site label (fun u => next u >>= f) (by rw [hp, bind_assoc])
    · exact hdefs env (fun u => next u >>= f) (by rw [hp, bind_assoc])

/-- Both stacks are what they were. -/
def same_stacks : Setoid State := Setoid.ker fun s => (s.ev.frames, s.ev.active_defs)

theorem same_stacks_iff {s t : State} :
    same_stacks.r s t ↔ s.ev.frames = t.ev.frames ∧ s.ev.active_defs = t.ev.active_defs := by
  rw [← Prod.mk.injEq]
  exact Iff.rfl

/-- What the evaluator is to keep, with calls nested at most `depth` deep. -/
abbrev Builtins.keep_stacks (builtins : Builtins) (depth : Nat) :
    Keep (state_ops.withCalls evaluator_calls) State :=
  (evaluator builtins).keep state_machine (fun _ => room) room same_stacks depth

section
variable {builtins : Builtins} {depth : Nat}

theorem guard_keep_stacks (hcalls : (evaluator builtins).CallsKeep state_machine (fun _ => room) same_stacks depth) :
    Guard (builtins.keep_stacks depth) where
  op _ _ := rfl
  alike s t h := by
    rw [Builtins.keep_stacks, Procedures.keep, same_stacks_iff]
    exact ⟨congrArg Context.frames h, congrArg Context.active_defs h⟩
  call := hcalls.call room

variable [Guard (builtins.keep_stacks depth)]

/-- Where no push is made on a full stack, a body is entered with room on both. -/
theorem enter_body_room {frame : Env} {name : String} {site : Option Span} {s : State}
    (h : (enter_body frame name site).Always (builtins.keep_stacks depth).machine
      (builtins.keep_stacks depth).watch s) :
    s.ev.frames.length < EVAL_MAX_DEPTH ∧ s.ev.active_defs.length < EVAL_MAX_DEPTH := by
  have hdeeper := modify_runs (K := builtins.keep_stacks depth)
    (fun ev => { ev with call_depth := ev.call_depth + 1 }) s
  have hpushes := h.behind hdeeper
  have hdefs : s.ev.active_defs.length < EVAL_MAX_DEPTH := hpushes.here.1.2 frame _ rfl
  have hpush := hpushes.behind (modify_runs (K := builtins.keep_stacks depth) (Eval.with_active_def frame) _)
  have hframes := hpush.here.1.1 site name pure (bind_pure _).symm
  rw [Eval.with_active_def, if_pos hdefs] at hframes
  exact ⟨hframes, hdefs⟩

theorem entered_of_room (frame : Env) (name : String) (site : Option Span) {ev : Eval}
    (hframes : ev.frames.length < EVAL_MAX_DEPTH) (hdefs : ev.active_defs.length < EVAL_MAX_DEPTH) :
    ev.entered frame name site = { ev with
      call_depth := ev.call_depth + 1
      active_defs := frame :: ev.active_defs
      frames := { line := site.elim 0 Span.line, col := site.elim 0 Span.col, label := name } :: ev.frames } := by
  simp only [Eval.entered, Eval.with_active_def, if_pos hdefs, Eval.with_frame, if_pos hframes]

theorem run_method_body_keeps (frame : Env) (name : String) (body : Option Node) (site : Option Span) :
    (run_method_body frame name body site).Keeps (builtins.keep_stacks depth) where
  keeps := by
    intro s t v halways hrun
    obtain ⟨u, hbody, rfl⟩ := run_method_body_cases hrun
    obtain ⟨hframes, hdefs⟩ := enter_body_room halways.before
    have hbehind := (halways.behind (enter_body_runs (K := builtins.keep_stacks depth) frame name site s)).before
    have hkept := same_stacks_iff.mp (Program.Keeps.keeps hbehind hbody)
    rw [entered_of_room frame name site hframes hdefs] at hkept
    refine same_stacks_iff.mpr ⟨?_, ?_⟩
    · rw [Eval.left, ← hkept.1]
      rfl
    · rw [Eval.left, ← hkept.2]
      rfl

theorem keeps_modify_stacks {f : Eval → Eval} (hframes : ∀ ev, (f ev).frames = ev.frames)
    (hdefs : ∀ ev, (f ev).active_defs = ev.active_defs) : (modify f).Keeps (builtins.keep_stacks depth) where
  keeps := by
    intro s t v _ hrun
    rw [run_modify_of hrun]
    exact same_stacks_iff.mpr ⟨(hframes s.ev).symm, (hdefs s.ev).symm⟩

/-- A block's frame is pushed, the block run and the frame taken off again. -/
theorem pushed_keeps {α β : Type} (site : Option Span) (label : String) {p : P α} {rest : α → P β}
    [hp : p.Keeps (builtins.keep_stacks depth)] [hrest : ∀ v, (rest v).Keeps (builtins.keep_stacks depth)] :
    (eval_push_frame site label >>= fun _ => p >>= fun v => eval_pop_frame >>= fun _ => rest v).Keeps
      (builtins.keep_stacks depth) where
  keeps := by
    intro s t result halways hrun
    have hroom : s.ev.frames.length < EVAL_MAX_DEPTH := halways.here.1.1 site label _ rfl
    have hpush := modify_runs (K := builtins.keep_stacks depth) (Eval.with_frame site label) s
    have hpushed := halways.behind hpush
    obtain ⟨v, u, hbody, hbehind⟩ := run_bind_eq_some_iff.mp ((run_bind_some hpush).symm.trans hrun)
    have hkept := same_stacks_iff.mp (hp.keeps hpushed.before hbody)
    have hpop := modify_runs (K := builtins.keep_stacks depth) (fun ev => { ev with frames := ev.frames.tail }) u
    have hlast := (hrest v).keeps ((hpushed.behind hbody).behind hpop) ((run_bind_some hpop).symm.trans hbehind)
    refine same_stacks.iseqv.trans (same_stacks_iff.mpr ⟨?_, ?_⟩) hlast
    · rw [← hkept.1, Eval.with_frame, if_pos hroom]
      rfl
    · rw [← hkept.2, Eval.with_frame, if_pos hroom]

theorem covers_keep_stacks : Covers (builtins.keep_stacks depth) where
  toGuard := inferInstance
  run_method_body := run_method_body_keeps

theorem call_method_value_body_keeps (recv method : Value) (owner : Option Ref) (name : String) (args : List Value)
    (blk : Option Value) (site : Option Span) :
    (call_method_value_body recv method owner name args blk site).Keeps (builtins.keep_stacks depth) := by
  have hcovers : Covers (builtins.keep_stacks depth) := covers_keep_stacks
  have hfile (file : Option String) :
      (modify fun ev => { ev with current_file := file }).Keeps (builtins.keep_stacks depth) :=
    keeps_modify_stacks (fun _ => rfl) fun _ => rfl
  have huse (file : Option String) : (use_file file).Keeps (builtins.keep_stacks depth) := .ite (hfile file) (.ret ())
  unfold call_method_value_body
  refine .seq inferInstance fun entered => ?_
  split
  · infer_instance
  · refine .seq inferInstance fun _ => ?_
    dsimp only
    split <;> infer_instance

theorem call_block_body_keeps (blk : Value) (args : List Value) (call_site : Option Span) :
    (call_block_body blk args call_site).Keeps (builtins.keep_stacks depth) := by
  have hfile (file : Option String) :
      (modify fun ev => { ev with current_file := file }).Keeps (builtins.keep_stacks depth) :=
    keeps_modify_stacks (fun _ => rfl) fun _ => rfl
  have huse (file : Option String) : (use_file file).Keeps (builtins.keep_stacks depth) := .ite (hfile file) (.ret ())
  unfold call_block_body
  split
  · refine .seq inferInstance fun ev => .seq (huse _) fun _ => .seq inferInstance fun entered => ?_
    split
    · infer_instance
    · exact pushed_keeps _ _
  · infer_instance
  · infer_instance

end

/-- Every function of the evaluator keeps its stacks, if the built-ins do. -/
theorem evaluator_keeps_stacks {builtins : Builtins} {depth : Nat}
    (hbuiltins : ∀ b, (builtins b).Keeps (builtins.keep_stacks depth))
    (hcalls : (evaluator builtins).CallsKeep state_machine (fun _ => room) same_stacks depth) (c : Call) :
    (evaluator builtins depth c).Keeps (builtins.keep_stacks depth) := by
  have hguard := guard_keep_stacks hcalls
  have hcovers : Covers (builtins.keep_stacks depth) := covers_keep_stacks
  exact evaluator_keeps depth call_method_value_body_keeps call_block_body_keeps hbuiltins c

/-- In every run in which no push is made on a full stack, a call leaves both
stacks as they were. -/
theorem stacks_balanced {builtins : Builtins} (hbuiltins : ∀ depth b, (builtins b).Keeps (builtins.keep_stacks depth))
    (depth : Nat) (c : Call) (s t : State) (answer : c.Answer)
    (hroom : (evaluator builtins).Watched state_machine (fun _ => room) depth c s)
    (hrun : (evaluator builtins).oracle state_machine depth c s = some (answer, t)) :
    t.ev.frames = s.ev.frames ∧ t.ev.active_defs = s.ev.active_defs ∧
      ∀ target, eval_def_target_active t.ev target = eval_def_target_active s.ev target := by
  have hkept := Procedures.keeps_watched (fun depth => evaluator_keeps_stacks (hbuiltins depth)) depth hroom hrun
  obtain ⟨hframes, hdefs⟩ := same_stacks_iff.mp hkept
  refine ⟨hframes.symm, hdefs.symm, fun target => ?_⟩
  cases target with
  | none => rfl
  | some target => exact congrArg (·.contains target) hdefs.symm

/-- `def g; nil; end` -/
def g_call : Call :=
  .call_method_value .nil (.method (.def_ no_span none "g" [] (some (.nil no_span))) 0 .method_public none) none "g" []
    none (some no_span)

theorem room_of_lengths (_ : Machine (state_ops.withCalls evaluator_calls) State) {α : Type} (p : P α) (s : State)
    (h : s.ev.frames.length < EVAL_MAX_DEPTH ∧ s.ev.active_defs.length < EVAL_MAX_DEPTH) : room.holds p s :=
  ⟨fun _ _ _ _ => h.1, fun _ _ _ => h.2⟩

/-- A method that is called at the top level. -/
theorem stacks_balanced_around_g :
    ∃ out, (evaluator no_builtins).oracle state_machine 2 g_call bare_state = some out ∧
      out.2.ev.frames = [] ∧ out.2.ev.active_defs = [0] ∧
      ∀ target, eval_def_target_active out.2.ev target = eval_def_target_active bare_state.ev target := by
  have hreturns : ((evaluator no_builtins).oracle state_machine 2 g_call bare_state).isSome := by decide +kernel
  obtain ⟨⟨answer, t⟩, hrun⟩ := Option.isSome_iff_exists.mp hreturns
  have hroom : ∀ u ∈ (evaluator no_builtins).passed state_machine 2 g_call bare_state,
      u.ev.frames.length < EVAL_MAX_DEPTH ∧ u.ev.active_defs.length < EVAL_MAX_DEPTH := by decide +kernel
  refine ⟨(answer, t), hrun, stacks_balanced ?_ 2 g_call bare_state t answer ?_ hrun⟩
  · exact fun _ _ => inferInstanceAs (Program.Keeps _ .halt)
  · exact Procedures.watched_of_passed room_of_lengths hroom

/-- `def f = self.f` of an object. -/
def f_method : Value :=
  .method (.def_ no_span none "f" [] (some (.call no_span (some (.self no_span)) "f" [] none false))) 0 .method_public
    none

/-- The frames of an object with that method that has been called 511 times. -/
def f_envs : EnvHeap where
  frames := [
    { vars := [], parent := none, is_def := true, block_arg := none },
    { vars := [("f", f_method)], parent := some 0, is_def := true, block_arg := none }] ++
    List.replicate 511 {
      vars := [("__class__", .nil), ("__method__", .symbol "f"), ("self", .object 0)]
      parent := some 0, is_def := true, block_arg := none }
  parent_lt := by
    intro env frame hframe outer hparent
    match env with
    | 0 =>
      cases hframe
      cases hparent
    | 1 =>
      cases hframe
      cases hparent
      exact Nat.one_pos
    | env + 2 =>
      have hframe := List.eq_of_mem_replicate (List.mem_of_getElem? (i := env) hframe)
      subst hframe
      cases hparent
      exact Nat.succ_pos _

/-- Inside the 511th of these calls. -/
def deep_state : State where
  ev := { bare_state.ev with
    call_depth := 511
    frames := List.replicate 511 { line := 0, col := 0, label := "f" }
    active_defs := (List.range 511).map (512 - ·) ++ [0]
    objects := [{ klass := .nil, ivars := [], singleton_env := some 1, native := none, frozen := false }] }
  envs := f_envs
  host := []

/-- A recursion that goes deeper than the stacks takes two entries more off
each of them than it put there. -/
theorem stacks_lost_in_recursion :
    deep_state.ev.frames.length = 511 ∧ deep_state.ev.active_defs.length = 512 ∧
      ((evaluator no_builtins).oracle state_machine 12
        (.call_method_value (.object 0) f_method none "f" [] none (some no_span)) deep_state).map
        (fun out => (out.2.ev.frames.length, out.2.ev.active_defs.length)) = some (510, 510) := by
  decide +kernel

end stoned
