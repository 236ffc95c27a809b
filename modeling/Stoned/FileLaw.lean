import Stoned.StackLaw

namespace stoned

open program

/-! A block's call leaves the file, the stack of frames and the call depth as
they were, unless the block cannot be entered or the stack is full. -/

/-- The first part of a block's call: its file, then its frame. -/
def enter_block_file (def_file : Option String) (params : List Node) (closure : Env) (is_lambda : Bool)
    (args : List Value) (call_site : Option Span) : P (Option Env) := do
  use_file def_file
  enter_block params closure is_lambda args call_site

/-- A push finds room on the stack of frames, and a block that cannot be
entered comes from the file it is called in. -/
def restoring (M : Machine (state_ops.withCalls evaluator_calls) State) :
    Watch (state_ops.withCalls evaluator_calls) State where
  holds p s :=
    (∀ site label next, p = eval_push_frame site label >>= next → s.ev.frames.length < EVAL_MAX_DEPTH) ∧
      ∀ def_file params closure is_lambda args call_site next,
        p = enter_block_file def_file params closure is_lambda args call_site >>= next →
        ∀ t, (enter_block_file def_file params closure is_lambda args call_site).run M s = some (none, t) →
          def_file = none ∨ def_file = s.ev.current_file
  before := by
    rintro α β p f s ⟨hframes, hfiles⟩
    refine ⟨fun site label next hp => ?_, fun def_file params closure is_lambda args call_site next hp => ?_⟩
    · exact hframes site label (fun u => next u >>= f) (by rw [hp, bind_assoc])
    · exact hfiles def_file params closure is_lambda args call_site (fun u => next u >>= f) (by rw [hp, bind_assoc])

/-- The file, the frames and the call depth are what they were. -/
def same_place : Setoid State := Setoid.ker fun s => (s.ev.current_file, s.ev.frames, s.ev.call_depth)

theorem same_place_iff {s t : State} : same_place.r s t ↔
    s.ev.current_file = t.ev.current_file ∧ s.ev.frames = t.ev.frames ∧ s.ev.call_depth = t.ev.call_depth := by
  rw [← Prod.mk.injEq, ← Prod.mk.injEq]
  exact Iff.rfl

/-- Calls keep their place where a condition is met. -/
abbrev Builtins.CallsKeepPlace (builtins : Builtins) (depth : Nat) : Prop :=
  (evaluator builtins).CallsKeep state_machine restoring same_place depth

/-- What the evaluator is to keep, with calls nested at most `depth` deep. -/
abbrev Builtins.keep_place (builtins : Builtins) (V : Watch (state_ops.withCalls evaluator_calls) State) (depth : Nat) :
    Keep (state_ops.withCalls evaluator_calls) State :=
  (evaluator builtins).keep state_machine restoring V same_place depth

section
variable {builtins : Builtins} {depth : Nat} {V : Watch (state_ops.withCalls evaluator_calls) State}

theorem guard_keep_place (hcalls : builtins.CallsKeepPlace depth) : Guard (builtins.keep_place V depth) where
  op _ _ := rfl
  alike s t h := by
    rw [Builtins.keep_place, Procedures.keep, same_place_iff]
    exact ⟨congrArg Context.current_file h, congrArg Context.frames h, congrArg Context.call_depth h⟩
  call := hcalls.call V

/-- A call that switches the file and puts it back. -/
theorem file_restored_keeps {α β : Type} [Guard (builtins.keep_place V depth)] (def_file : Option String) {p : P α}
    {rest : α → P β} [hp : p.Keeps (builtins.keep_place V depth)]
    [hrest : ∀ v, (rest v).Keeps (builtins.keep_place V depth)] :
    (get >>= fun ev => use_file def_file >>= fun _ => p >>= fun v =>
      modify (fun now => { now with current_file := ev.current_file }) >>= fun _ => rest v).Keeps
      (builtins.keep_place V depth) where
  keeps := by
    intro s t result halways hrun
    obtain ⟨ev, s', hget, hfile⟩ := run_bind_eq_some_iff.mp hrun
    cases run_op hget
    have huse := use_file_runs (K := builtins.keep_place V depth) def_file s
    have hused := (halways.behind hget).behind huse
    obtain ⟨v, u, hbody, hbehind⟩ := run_bind_eq_some_iff.mp ((run_bind_some huse).symm.trans hfile)
    have hkept := same_place_iff.mp (hp.keeps hused.before hbody)
    have hback := modify_runs (K := builtins.keep_place V depth)
      (fun now => { now with current_file := s.ev.current_file }) u
    have hlast := (hrest v).keeps ((hused.behind hbody).behind hback) ((run_bind_some hback).symm.trans hbehind)
    have hrestored : same_place.r s { u with ev := { u.ev with current_file := s.ev.current_file } } := by
      refine same_place_iff.mpr ⟨rfl, ?_, ?_⟩
      · refine Eq.trans ?_ hkept.2.1
        cases def_file <;> rfl
      · refine Eq.trans ?_ hkept.2.2
        cases def_file <;> rfl
    exact same_place.iseqv.trans hrestored hlast

/-- Where the stack of frames has room, a method's body keeps its place. -/
theorem run_method_body_place {s t : State} {v : Value} {frame : Env} {name : String} {body : Option Node}
    {site : Option Span} [Guard (builtins.keep_place V depth)]
    (halways : (run_method_body frame name body site).Always (builtins.keep_place V depth).machine
      (builtins.keep_place V depth).watch s)
    (hrun : (run_method_body frame name body site).run (builtins.keep_place V depth).machine s = some (v, t))
    (hroom : s.ev.frames.length < EVAL_MAX_DEPTH) : same_place.r s t := by
  obtain ⟨u, hbody, rfl⟩ := run_method_body_cases hrun
  have hbehind := (halways.behind (enter_body_runs (K := builtins.keep_place V depth) frame name site s)).before
  have hkept := same_place_iff.mp (Program.Keeps.keeps hbehind hbody)
  have hframes : (s.ev.entered frame name site).frames.tail = s.ev.frames := by
    rw [Eval.entered, with_frame_tail site name (by simpa using hroom), with_active_def_frames]
  have hplace : (s.ev.entered frame name site).current_file = s.ev.current_file ∧
      (s.ev.entered frame name site).call_depth = s.ev.call_depth + 1 := by
    simp [Eval.entered]
  refine same_place_iff.mpr ⟨hplace.1.symm.trans hkept.1, ?_, ?_⟩
  · exact hframes.symm.trans (congrArg List.tail hkept.2.1)
  · have hdepth := hplace.2.symm.trans hkept.2.2
    simp only [Eval.left]
    omega

/-- How a block's call ends: it is refused behind its first part, or its body
is run and the file put back. -/
theorem call_block_cases {span : Span} {params : List Node} {body : Option Node} {closure : Env}
    {is_lambda is_proc_object : Bool} {def_file : Option String} {args : List Value} {call_site : Option Span}
    {s t : State} {v : Value} [Guard (builtins.keep_place V depth)]
    (halways : (call_block_body (.block (.block span params body) closure is_lambda is_proc_object def_file) args
      call_site).Always (builtins.keep_place V depth).machine (builtins.keep_place V depth).watch s)
    (hrun : (call_block_body (.block (.block span params body) closure is_lambda is_proc_object def_file) args
      call_site).run (builtins.keep_place V depth).machine s = some (v, t)) :
    ∃ entered u, (enter_block_file def_file params closure is_lambda args call_site).run (builtins.machine depth) s =
        some (entered, u) ∧
      same_place.r { s with ev := s.ev.in_file def_file } u ∧
      match entered with
      | none => t = u
      | some _ => t.ev.current_file = s.ev.current_file ∧ t.ev.call_depth = s.ev.call_depth ∧
          t.ev.frames = (u.ev.with_frame call_site "block").frames.tail := by
  obtain ⟨ev, s', hget, hblock⟩ := run_bind_eq_some_iff.mp hrun
  cases run_op hget
  have huse := use_file_runs (K := builtins.keep_place V depth) def_file s
  have hused := (halways.behind hget).behind huse
  obtain ⟨entered, u, henter, hrest⟩ := run_bind_eq_some_iff.mp ((run_bind_some huse).symm.trans hblock)
  have hkept : same_place.r { s with ev := s.ev.in_file def_file } u := Program.Keeps.keeps hused.before henter
  refine ⟨entered, u, (run_bind_some huse).trans henter, hkept, ?_⟩
  cases entered with
  | none =>
    cases hrest
    rfl
  | some frame =>
    have hpush := modify_runs (K := builtins.keep_place V depth) (Eval.with_frame call_site "block") u
    have hpushed := (hused.behind henter).behind hpush
    obtain ⟨result, w, hbody, hleave⟩ := run_bind_eq_some_iff.mp ((run_bind_some hpush).symm.trans hrest)
    have hran := same_place_iff.mp (Program.Keeps.keeps hpushed.before hbody)
    have hpop := modify_runs (K := builtins.keep_place V depth) (fun ev => { ev with frames := ev.frames.tail }) w
    have hback := modify_runs (K := builtins.keep_place V depth)
      (fun now => { now with current_file := s.ev.current_file })
      { w with ev := { w.ev with frames := w.ev.frames.tail } }
    have hbehind := (run_bind_some hback).symm.trans ((run_bind_some hpop).symm.trans hleave)
    have hended := ((hpushed.behind hbody).behind hpop).behind hback
    have hlast := same_place_iff.mp (Program.Keeps.keeps hended hbehind)
    have hdepth : (s.ev.in_file def_file).call_depth = s.ev.call_depth := by cases def_file <;> rfl
    refine ⟨hlast.1.symm, ?_, ?_⟩
    · have hu := (same_place_iff.mp hkept).2.2
      have hw := hran.2.2
      rw [with_frame_call_depth] at hw
      exact hlast.2.2.symm.trans (hw.symm.trans (hu.symm.trans hdepth))
    · exact hlast.2.1.symm.trans (congrArg List.tail hran.2.1.symm)

end

section
variable {builtins : Builtins} {depth : Nat}

/-- What every function of the evaluator keeps on runs that meet the condition. -/
abbrev Builtins.restore_place (builtins : Builtins) (depth : Nat) : Keep (state_ops.withCalls evaluator_calls) State :=
  builtins.keep_place (restoring (builtins.machine depth)) depth

theorem covers_restore_place [Guard (builtins.restore_place depth)] : Covers (builtins.restore_place depth) where
  toGuard := inferInstance
  run_method_body frame name body site := by
    refine ⟨fun {s t v} halways hrun => run_method_body_place halways hrun ?_⟩
    have hdeeper := modify_runs (K := builtins.restore_place depth)
      (fun ev => { ev with call_depth := ev.call_depth + 1 }) s
    have hpushes := halways.before.behind hdeeper
    have hpush := hpushes.behind (modify_runs (K := builtins.restore_place depth) (Eval.with_active_def frame) _)
    have hroom := hpush.here.1.1 site name pure (bind_pure _).symm
    rwa [with_active_def_frames] at hroom

/-- The first part of a block's call is where its condition applies. -/
theorem enter_block_file_always {M : Machine (state_ops.withCalls evaluator_calls) State}
    {W : Watch (state_ops.withCalls evaluator_calls) State} {α : Type} {def_file : Option String} {params : List Node}
    {closure : Env} {is_lambda : Bool} {args : List Value} {call_site : Option Span} {next : Option Env → P α}
    {s : State}
    (h : (use_file def_file >>= fun _ => enter_block params closure is_lambda args call_site >>= next).Always M W s) :
    (enter_block_file def_file params closure is_lambda args call_site >>= next).Always M W s := by
  rw [enter_block_file, bind_assoc]
  exact h

theorem in_file_current_file {def_file : Option String} {ev : Eval}
    (h : def_file = none ∨ def_file = ev.current_file) :
    (ev.in_file def_file).current_file = ev.current_file := by
  cases def_file with
  | none => rfl
  | some file =>
    obtain h | h := h
    · cases h
    · exact h

theorem call_method_value_body_place [Guard (builtins.restore_place depth)] (recv method : Value) (owner : Option Ref)
    (name : String) (args : List Value) (blk : Option Value) (site : Option Span) :
    (call_method_value_body recv method owner name args blk site).Keeps (builtins.restore_place depth) := by
  have hcovers : Covers (builtins.restore_place depth) := covers_restore_place
  unfold call_method_value_body
  refine .seq inferInstance fun entered => ?_
  cases entered with
  | none => infer_instance
  | some frame =>
    cases method with
    | method def_node _ _ def_file => exact file_restored_keeps def_file
    | _ => exact .seq inferInstance fun _ => inferInstance

theorem call_block_body_place [Guard (builtins.restore_place depth)] (blk : Value) (args : List Value)
    (call_site : Option Span) : (call_block_body blk args call_site).Keeps (builtins.restore_place depth) := by
  unfold call_block_body
  split
  case h_2 | h_3 => infer_instance
  case h_1 span params body closure is_lambda is_proc_object def_file =>
    refine ⟨fun {s t v} halways hrun => ?_⟩
    have hcases := @call_block_cases builtins depth _ span params body closure is_lambda is_proc_object def_file
      args call_site s t v _ halways hrun
    obtain ⟨entered, u, henter, hkept, hend⟩ := hcases
    obtain ⟨ev, s', hget, -⟩ := run_bind_eq_some_iff.mp hrun
    cases run_op hget
    have hentry := enter_block_file_always (halways.behind hget)
    cases entered with
    | none =>
      subst hend
      have hfile := hentry.here.1.2 def_file params closure is_lambda args call_site _ rfl t henter
      refine same_place.iseqv.trans (same_place_iff.mpr ⟨?_, ?_, ?_⟩) hkept
      · exact (in_file_current_file hfile).symm
      · cases def_file <;> rfl
      · cases def_file <;> rfl
    | some frame =>
      obtain ⟨hfile, hdepth, hframes⟩ := hend
      have hroom := (hentry.behind henter).here.1.1 call_site "block" _ rfl
      rw [with_frame_tail call_site "block" hroom, ← (same_place_iff.mp hkept).2.1] at hframes
      refine same_place_iff.mpr ⟨hfile.symm, ?_, hdepth.symm⟩
      rw [hframes]
      cases def_file <;> rfl

end

/-- Every function of the evaluator keeps its place, if the built-ins do. -/
theorem evaluator_keeps_place {builtins : Builtins} {depth : Nat}
    (hbuiltins : ∀ b, (builtins b).Keeps (builtins.restore_place depth)) (hcalls : builtins.CallsKeepPlace depth)
    (c : Call) : (evaluator builtins depth c).Keeps (builtins.restore_place depth) := by
  have hguard : Guard (builtins.restore_place depth) := guard_keep_place hcalls
  have hcovers : Covers (builtins.restore_place depth) := covers_restore_place
  exact evaluator_keeps depth call_method_value_body_place call_block_body_place hbuiltins c

/-- A block's call neither is refused with another file nor finds the stack full. -/
def Restores (M : Machine (state_ops.withCalls evaluator_calls) State) (blk : Value) (args : List Value)
    (call_site : Option Span) (s : State) : Prop :=
  match blk with
  | .block (.block _ params _) closure is_lambda _ def_file =>
    ∀ entered u, (enter_block_file def_file params closure is_lambda args call_site).run M s = some (entered, u) →
      if entered.isSome then s.ev.frames.length < EVAL_MAX_DEPTH
      else def_file = none ∨ def_file = s.ev.current_file
  | _ => True

/-- With the calls it makes watched, a block's call puts the file, the number of
frames and the call depth back exactly when it is not refused with another file
and does not find the stack full. -/
theorem call_block_restores_iff {builtins : Builtins}
    (hbuiltins : ∀ depth b, (builtins b).Keeps (builtins.restore_place depth)) (depth : Nat) (blk : Value)
    (args : List Value) (call_site : Option Span) (s t : State) (v : Value)
    (hcalls : (call_block_body blk args call_site).Always (builtins.machine depth)
      (Watch.any.withCalls ((evaluator builtins).Watched state_machine restoring depth)) s)
    (hrun : (call_block_body blk args call_site).run (builtins.machine depth) s = some (v, t)) :
    (t.ev.current_file = s.ev.current_file ∧ t.ev.frames.length = s.ev.frames.length ∧
      t.ev.call_depth = s.ev.call_depth) ↔ Restores (builtins.machine depth) blk args call_site s := by
  have hkeep : builtins.CallsKeepPlace depth :=
    Procedures.keeps_watched (fun depth => evaluator_keeps_place (hbuiltins depth)) depth
  have hguard : Guard (builtins.keep_place Watch.any depth) := guard_keep_place hkeep
  by_cases hblk : ∃ span params body closure is_lambda is_proc_object def_file,
      blk = .block (.block span params body) closure is_lambda is_proc_object def_file
  · obtain ⟨span, params, body, closure, is_lambda, is_proc_object, def_file, rfl⟩ := hblk
    obtain ⟨entered, u, henter, hkept, hend⟩ := call_block_cases (V := Watch.any) hcalls hrun
    have hrestores : Restores (builtins.machine depth)
        (.block (.block span params body) closure is_lambda is_proc_object def_file) args call_site s ↔
        if entered.isSome then s.ev.frames.length < EVAL_MAX_DEPTH
        else def_file = none ∨ def_file = s.ev.current_file := by
      constructor
      · exact fun h => h entered u henter
      · intro h entered' u' henter'
        cases henter.symm.trans henter'
        exact h
    have hplace := same_place_iff.mp hkept
    have hframes : s.ev.frames = u.ev.frames := by
      refine Eq.trans ?_ hplace.2.1
      cases def_file <;> rfl
    have hdepth : s.ev.call_depth = u.ev.call_depth := by
      refine Eq.trans ?_ hplace.2.2
      cases def_file <;> rfl
    rw [hrestores]
    cases entered with
    | none =>
      subst hend
      rw [← hframes, ← hdepth, ← hplace.1]
      simp only [and_true, Option.isSome_none, Bool.false_eq_true, if_false]
      cases def_file <;> simp [Eval.in_file]
    | some frame =>
      obtain ⟨hfile, hcall_depth, hpopped⟩ := hend
      rw [hfile, hcall_depth, hpopped, Eval.with_frame, ← hframes]
      simp only [true_and, and_true, Option.isSome_some, if_true]
      split
      · rename_i hroom
        simp only [List.tail_cons, hroom]
      · rename_i hfull
        simp only [List.length_tail, ← hframes, EVAL_MAX_DEPTH] at hfull ⊢
        omega
  · have hkeeps : (call_block_body blk args call_site).Keeps (builtins.keep_place Watch.any depth) := by
      unfold call_block_body
      split
      · exact absurd ⟨_, _, _, _, _, _, _, rfl⟩ hblk
      · infer_instance
      · infer_instance
    have hrestores : Restores (builtins.machine depth) blk args call_site s := by
      unfold Restores
      split
      · exact absurd ⟨_, _, _, _, _, _, _, rfl⟩ hblk
      · trivial
    obtain ⟨hfile, hframes, hdepth⟩ := same_place_iff.mp (hkeeps.keeps hcalls hrun)
    simp only [hfile, hframes, hdepth, and_self, hrestores]

/-- `->(x) {}`, from a file of its own -/
def lambda_of (def_file : String) : Value :=
  .block (.block no_span [.param no_span (some "x") none false false false false] none) 0 true true (some def_file)

/-- The top level of a script. -/
def script_state : State := { bare_state with ev := { bare_state.ev with current_file := some "main.rb" } }

/-- A lambda of the same file, called without its argument. -/
theorem call_block_restores_in_file : ∃ out,
    (call_block_body (lambda_of "main.rb") [] none).run (no_builtins.machine 0) script_state = some out ∧
      ((out.2.ev.current_file = some "main.rb" ∧ out.2.ev.frames.length = 0 ∧ out.2.ev.call_depth = 0) ↔
        Restores (no_builtins.machine 0) (lambda_of "main.rb") [] none script_state) := by
  have hreturns :
      ((call_block_body (lambda_of "main.rb") [] none).run (no_builtins.machine 0) script_state).isSome := by
    decide +kernel
  obtain ⟨⟨v, t⟩, hrun⟩ := Option.isSome_iff_exists.mp hreturns
  refine ⟨(v, t), hrun, call_block_restores_iff ?_ 0 _ [] none script_state t v ?_ hrun⟩
  · exact fun _ _ => inferInstanceAs (Program.Keeps _ .halt)
  · exact fun _ _ _ => ⟨trivial, fun _ _ _ => trivial⟩

/-- A lambda of another file, called without its argument, leaves that file
the current one. -/
theorem file_lost_by_refused_lambda :
    ((call_block_body (lambda_of "lib/a.rb") [] none).run (no_builtins.machine 0) script_state).map
      (fun out => out.2.ev.current_file) = some (some "lib/a.rb") ∧
    script_state.ev.current_file = some "main.rb" := by
  decide +kernel

end stoned
